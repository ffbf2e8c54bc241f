/-
  Load balancing at two validators: what an evaluation decides depends on the certificates
  of its window, and on what the earlier evaluations have left.

  `migrations_agree`: two validators that have received the same certificates of every
  window so far decide the same. `not_migrations_agree`: the window reaches to two rounds
  below the current one, which does not keep its certificates from coming late.
-/
import DagBft.Consensus.Balancing

namespace DagBft.Consensus

open Node (MigrationNotice)

variable {PublicKey Digest Signature : Type} [LinearOrder PublicKey] [LinearOrder Digest]
  {cfg : BalancingSettings PublicKey} {name name' : PublicKey}
  {received received' : List (Certificate PublicKey Digest Signature)}
  {c : Certificate PublicKey Digest Signature} {s s' : Balancer PublicKey}

/-! ## What has been received of a window -/

/-- The certificates of the window of a round that have been received. -/
def viewOf (received : List (Certificate PublicKey Digest Signature)) (round : ℕ) :
    Set (Certificate PublicKey Digest Signature) :=
  { c | c ∈ received ∧ InWindow (round - 2) c.round }

/-- The rounds in which rerouting is evaluated, each with the certificates of the window that
    have been received by then. -/
def viewsFrom (name : PublicKey) (seen : List (Certificate PublicKey Digest Signature)) :
    List (Certificate PublicKey Digest Signature) →
      List (ℕ × Set (Certificate PublicKey Digest Signature))
  | [] => []
  | c :: rest =>
      (if Triggers name c then [(c.round, viewOf (seen ++ [c]) c.round)] else []) ++
        viewsFrom name (seen ++ [c]) rest

def views (name : PublicKey) (received : List (Certificate PublicKey Digest Signature)) :
    List (ℕ × Set (Certificate PublicKey Digest Signature)) := viewsFrom name [] received

theorem viewsFrom_append (seen : List (Certificate PublicKey Digest Signature)) :
    viewsFrom name seen (received ++ [c]) = viewsFrom name seen received ++
      if Triggers name c then [(c.round, viewOf (seen ++ received ++ [c]) c.round)] else [] := by
  induction received generalizing seen with
  | nil => simp [viewsFrom]
  | cons x received ih =>
      rw [List.cons_append, viewsFrom, ih, viewsFrom, List.append_assoc (_ ++ _)]
      simp

theorem views_append : views name (received ++ [c]) = views name received ++
    if Triggers name c then [(c.round, viewOf (received ++ [c]) c.round)] else [] := by
  unfold views
  rw [viewsFrom_append, List.nil_append]

theorem views_eq_nil (h : ∀ x ∈ received, ¬ Triggers name x) : views name received = [] := by
  induction received using List.reverseRecOn with
  | nil => rfl
  | append_singleton received c ih =>
      rw [views_append, ih fun x hx => h x (List.mem_append_left _ hx), if_neg (h c (by simp)),
        List.append_nil]

omit [LinearOrder PublicKey] in
theorem viewOf_congr {round : ℕ}
    (h : ∀ x ∈ received, InWindow (round - 2) x.round → x ∈ received')
    (h' : ∀ x ∈ received', InWindow (round - 2) x.round → x ∈ received) :
    viewOf received round = viewOf received' round := by
  ext x
  constructor
  · rintro ⟨hx, hin⟩
    exact ⟨h x hx hin, hin⟩
  · rintro ⟨hx, hin⟩
    exact ⟨h' x hx hin, hin⟩

/-! ## An evaluation reads the rounds of the window -/

section Window

variable {V : Type} {rounds rounds' : Rounds PublicKey V} {round : ℕ}

/-- The same entries in the rounds of the window. -/
def SameWindow (round : ℕ) (rounds rounds' : Rounds PublicKey V) : Prop :=
  ∀ r, InWindow (round - 2) r → rounds.lookup r = rounds'.lookup r

omit [LinearOrder PublicKey] in
theorem SameWindow.retain (h : SameWindow round rounds rounds') :
    HashMap.retain rounds (InWindow (round - 2)) =
      HashMap.retain rounds' (InWindow (round - 2)) := by
  refine Finmap.ext_lookup fun r => ?_
  rw [HashMap.lookup_retain, HashMap.lookup_retain]
  split
  · rename_i hr
    exact h r hr
  · rfl

omit [LinearOrder PublicKey] in
theorem SameWindow.window (h : SameWindow round rounds rounds') :
    rounds.window (round - 2) = rounds'.window (round - 2) := by
  unfold Rounds.window
  rw [h.retain]

theorem sameWindow {val : Certificate PublicKey Digest Signature → V} {b b' : ℕ}
    (hc : Covers rounds received b) (hh : Holds val rounds received b)
    (hc' : Covers rounds' received' b') (hh' : Holds val rounds' received' b')
    (hb : b ≤ round - 2 - trackingWindow) (hb' : b' ≤ round - 2 - trackingWindow)
    (hview : viewOf received round = viewOf received' round) : SameWindow round rounds rounds' := by
  intro r hr
  have hmem : ∀ x : Certificate PublicKey Digest Signature, x.round = r →
      (x ∈ received ↔ x ∈ received') := by
    rintro x rfl
    have := Set.ext_iff.mp hview x
    unfold viewOf at this
    rw [Set.mem_ofPred_eq, Set.mem_ofPred_eq, and_iff_left hr, and_iff_left hr] at this
    exact this
  have hr₁ := hb.trans hr.1
  have hr₂ := hb'.trans hr.1
  have hsome : (rounds.lookup r).isSome ↔ (rounds'.lookup r).isSome := by
    rw [hc.isSome r hr₁, hc'.isSome r hr₂]
    constructor
    · rintro ⟨x, hx, hxr⟩
      exact ⟨x, (hmem x hxr).mp hx, hxr⟩
    · rintro ⟨x, hx, hxr⟩
      exact ⟨x, (hmem x hxr).mpr hx, hxr⟩
  cases hl : rounds.lookup r with
  | none =>
      rw [hl] at hsome
      cases hl' : rounds'.lookup r with
      | none => rfl
      | some m' =>
          rw [hl'] at hsome
          cases hsome.mpr rfl
  | some m =>
      rw [hl] at hsome
      obtain ⟨m', hl'⟩ := Option.isSome_iff_exists.mp (hsome.mp rfl)
      rw [hl']
      congr 1
      refine Finmap.ext_lookup fun o => Option.ext fun v => ?_
      rw [hh r m hr₁ hl o v, hh' r m' hr₂ hl' o v]
      constructor
      · rintro ⟨x, hx, hxr, h⟩
        exact ⟨x, (hmem x hxr).mp hx, hxr, h⟩
      · rintro ⟨x, hx, hxr, h⟩
        exact ⟨x, (hmem x hxr).mpr hx, hxr, h⟩

end Window

section Congr

variable {t t' : Trackers PublicKey} {m : Memory PublicKey} {round createdAt createdAt' : ℕ}

/-- The trackers agree on the window. -/
structure SameTrackers (round : ℕ) (t t' : Trackers PublicKey) : Prop where
  rounds : SameWindow round t.throughput.rounds t'.throughput.rounds
  quorumStats : SameWindow round t.throughput.quorumStats t'.throughput.quorumStats
  dag : SameWindow round t.accounts.dag t'.accounts.dag

theorem stable_inWindow (round : ℕ) : InWindow (round - 2) (round - 2) :=
  ⟨Nat.sub_le _ _, le_rfl⟩

omit [LinearOrder PublicKey] in
theorem SameTrackers.roundTimestampMs (h : SameTrackers round t t') {r : ℕ}
    (hr : InWindow (round - 2) r) :
    t.throughput.roundTimestampMs r = t'.throughput.roundTimestampMs r := by
  unfold ValidatorThroughputTracker.roundTimestampMs
  rw [h.rounds r hr]

theorem SameTrackers.getTps (h : SameTrackers round t t') :
    t.throughput.getTps (round - 2) = t'.throughput.getTps (round - 2) := by
  have hfirst : (sorted (· ≤ ·)
        (HashMap.retain t'.throughput.rounds (InWindow (round - 2))).keys.val).head?.bind
          t.throughput.rounds.lookup =
      (sorted (· ≤ ·)
        (HashMap.retain t'.throughput.rounds (InWindow (round - 2))).keys.val).head?.bind
          t'.throughput.rounds.lookup := by
    refine Option.bind_congr fun r hr => h.rounds r ?_
    have hmem := List.mem_of_mem_head? hr
    rw [mem_sorted, Finset.mem_val, Finmap.mem_keys, ← Finmap.lookup_isSome,
      HashMap.lookup_retain] at hmem
    split at hmem
    · assumption
    · cases hmem
  unfold ValidatorThroughputTracker.getTps
  dsimp only
  rw [h.rounds.window, h.rounds.retain, hfirst, h.rounds _ (stable_inWindow round)]

/-- The throughput of a window needs its last round. -/
theorem stable_of_getTps {tps : HashMap PublicKey ℚ}
    (h : t.throughput.getTps (round - 2) = .ok (some tps)) :
    ∃ ts, t.throughput.roundTimestampMs (round - 2) = .ok (some ts) := by
  unfold ValidatorThroughputTracker.getTps at h
  dsimp only at h
  split at h
  · cases h
  · split at h
    · cases h
    · obtain ⟨startTs, -, h⟩ := bind_eq_ok.mp h
      unfold ValidatorThroughputTracker.roundTimestampMs
      cases hl : t.throughput.rounds.lookup (round - 2) with
      | none =>
          rw [hl] at h
          cases h
      | some v =>
          rw [hl] at h
          obtain ⟨endTs, hend, -⟩ := bind_eq_ok.mp h
          exact ⟨endTs, congrArg (Except.map some) hend⟩

theorem SameTrackers.trigger (h : SameTrackers round t t') :
    trigger cfg t m round createdAt = trigger cfg t' m round createdAt' := by
  unfold Consensus.trigger
  rw [← h.getTps]
  cases htps : t.throughput.getTps (round - 2) with
  | error e => rfl
  | ok o =>
      cases o with
      | none => rfl
      | some tps =>
          obtain ⟨ts, hts⟩ := stable_of_getTps htps
          have hts' : t'.throughput.roundTimestampMs (round - 2) = .ok (some ts) := by
            rw [← h.roundTimestampMs (stable_inWindow round), hts]
          have hev : evaluate cfg t m round createdAt tps =
              evaluate cfg t' m round createdAt' tps := by
            unfold evaluate
            dsimp only
            rw [hts, hts', h.roundTimestampMs ⟨le_rfl, Nat.sub_le _ _⟩]
            unfold ValidatorThroughputTracker.avgQueueDelay
              AccountDistributionTracker.perValidatorAccountCounts
            rw [h.quorumStats.window, h.dag.window]
            rfl
          dsimp only [bind, Except.bind]
          rw [hev]

end Congr

/-! ## Only the evaluations change what is remembered -/

omit [LinearOrder PublicKey] in
theorem NonEquivocating.of_prefix (h : NonEquivocating received')
    (hpre : received <+: received') : NonEquivocating received :=
  fun x hx y hy => h x (hpre.subset hx) y (hpre.subset hy)

theorem Increasing.of_prefix (h : Increasing name received') (hpre : received <+: received') :
    Increasing name received :=
  h.sublist (hpre.sublist.filter _)

theorem run_of_views_nil (h : views name received = []) (hrun : balance cfg name received = .ok s) :
    ∃ s₀, cfg.initial = .ok s₀ ∧ s.memory = s₀.memory ∧ s.evaluations = s₀.evaluations := by
  induction received using List.reverseRecOn generalizing s with
  | nil =>
      obtain ⟨s₀, hs₀, hrun⟩ := bind_eq_ok.mp hrun
      rw [← Except.ok.inj hrun]
      exact ⟨s₀, hs₀, rfl, rfl⟩
  | append_singleton received c ih =>
      rw [views_append, List.append_eq_nil_iff] at h
      obtain ⟨s₁, hrun₁, hstep⟩ := balance_append.mp hrun
      rcases onCertificate_cases hstep with ⟨-, rfl⟩ | ⟨htr, -⟩
      · have h₀ := ih h.1 hrun₁
        exact h₀
      · rw [if_pos htr] at h
        cases h.2

/-- The last evaluation of a run. -/
theorem run_of_views_append {vs : List (ℕ × Set (Certificate PublicKey Digest Signature))}
    {v : ℕ × Set (Certificate PublicKey Digest Signature)}
    (h : views name received = vs ++ [v]) (hrun : balance cfg name received = .ok s) :
    ∃ pre c s₀ e m, pre ++ [c] <+: received ∧ c.origin = name ∧ views name pre = vs ∧
      v = (c.round, viewOf (pre ++ [c]) c.round) ∧ balance cfg name pre = .ok s₀ ∧
      trigger cfg (s₀.trackers.record c) s₀.memory c.round c.header.createdAt = .ok (e, m) ∧
      s.memory = m ∧ s.evaluations = s₀.evaluations ++ [e] := by
  induction received using List.reverseRecOn generalizing s with
  | nil => simp [views, viewsFrom] at h
  | append_singleton received c ih =>
      rw [views_append] at h
      obtain ⟨s₁, hrun₁, hstep⟩ := balance_append.mp hrun
      rcases onCertificate_cases hstep with ⟨htr, rfl⟩ | ⟨htr, e, m, htrigger, rfl⟩
      · rw [if_neg htr, List.append_nil] at h
        obtain ⟨pre, c', s₀, e, m, hpre, hrest⟩ := ih h hrun₁
        exact ⟨pre, c', s₀, e, m, hpre.trans (List.prefix_append _ _), hrest⟩
      · rw [if_pos htr] at h
        obtain ⟨hvs, hv⟩ := List.append_inj' h rfl
        exact ⟨received, c, s₁, e, m, List.prefix_rfl, htr.1, hvs, (List.singleton_inj.mp hv).symm,
          hrun₁, htrigger, rfl, rfl⟩

/-- What two validators have seen in their evaluations determines what they remember. -/
theorem same_of_views (hne : NonEquivocating received) (hne' : NonEquivocating received')
    (hinc : Increasing name received) (hinc' : Increasing name' received')
    (hrun : balance cfg name received = .ok s) (hrun' : balance cfg name' received' = .ok s')
    (hviews : views name received = views name' received') :
    s.memory = s'.memory ∧ s.evaluations = s'.evaluations := by
  generalize hvs : views name received = vs at hviews
  induction vs using List.reverseRecOn generalizing received received' s s' with
  | nil =>
      obtain ⟨s₀, hinit, hm, he⟩ := run_of_views_nil hvs hrun
      obtain ⟨s₀', hinit', hm', he'⟩ := run_of_views_nil hviews.symm hrun'
      obtain rfl := Except.ok.inj (hinit.symm.trans hinit')
      exact ⟨hm.trans hm'.symm, he.trans he'.symm⟩
  | append_singleton vs v ih =>
      obtain ⟨pre, c, s₀, e, m, hpre, hc, hpvs, hv, hprun, htrigger, hm, he⟩ :=
        run_of_views_append hvs hrun
      obtain ⟨pre', c', s₀', e', m', hpre', hc', hpvs', hv', hprun', htrigger', hm', he'⟩ :=
        run_of_views_append hviews.symm hrun'
      have hne₁ := hne.of_prefix hpre
      have hne₁' := hne'.of_prefix hpre'
      have hinc₁ := hinc.of_prefix hpre
      have hinc₁' := hinc'.of_prefix hpre'
      obtain ⟨ihm, ihe⟩ := ih hne₁.of_append hne₁'.of_append hinc₁.of_append hinc₁'.of_append
        hprun hprun' hpvs hpvs'.symm
      obtain ⟨b, ht⟩ := tracking_balance hinc₁.of_append hprun
      obtain ⟨b', ht'⟩ := tracking_balance hinc₁'.of_append hprun'
      have hb := ht.bound.le hinc₁ hc
      have hb' := ht'.bound.le hinc₁' hc'
      obtain ⟨hround, hview⟩ := Prod.mk.inj (hv.symm.trans hv')
      rw [← hround] at hb' hview htrigger'
      have ht₁ : Tracking name (pre ++ [c]) (s₀.trackers.record c) b := ht.record
      have ht₁' : Tracking name' (pre' ++ [c']) (s₀'.trackers.record c') b' := ht'.record
      obtain ⟨h₁, h₂, h₃⟩ := ht₁.holds hne₁
      obtain ⟨h₁', h₂', h₃'⟩ := ht₁'.holds hne₁'
      have hsame : SameTrackers c.round (s₀.trackers.record c) (s₀'.trackers.record c') :=
        ⟨sameWindow ht₁.rounds h₁ ht₁'.rounds h₁' hb hb' hview,
          sameWindow ht₁.quorumStats h₂ ht₁'.quorumStats h₂' hb hb' hview,
          sameWindow ht₁.dag h₃ ht₁'.dag h₃' hb hb' hview⟩
      rw [hsame.trigger, ihm] at htrigger
      obtain ⟨rfl, rfl⟩ := Prod.mk.inj (Except.ok.inj (htrigger.symm.trans htrigger'))
      exact ⟨hm.trans hm'.symm, by rw [he, he', ihe]⟩

/-- The run that ends with an evaluation. -/
theorem run_take (hrun : balance cfg name received = .ok s) (k : ℕ) :
    s.evaluations.length = (views name received).length ∧
      ∃ pre s₀, pre <+: received ∧ balance cfg name pre = .ok s₀ ∧
        views name pre = (views name received).take k ∧
        s₀.evaluations = s.evaluations.take k := by
  induction received using List.reverseRecOn generalizing s with
  | nil =>
      have hs : s.evaluations = [] := by
        unfold balance BalancingSettings.initial at hrun
        split at hrun
        · cases hrun
        · rw [← Except.ok.inj hrun]
      refine ⟨by rw [hs]; rfl, [], s, List.prefix_rfl, hrun, ?_, ?_⟩
      · simp [views, viewsFrom]
      · rw [hs, List.take_nil]
  | append_singleton received c ih =>
      have hwhole := hrun
      obtain ⟨s₁, hrun, hstep⟩ := balance_append.mp hrun
      obtain ⟨hlen, pre, s₀, hpre, hprun, hpviews, hpev⟩ := ih hrun
      have hpre := hpre.trans (List.prefix_append received [c])
      rw [views_append]
      rcases onCertificate_cases hstep with ⟨htr, rfl⟩ | ⟨htr, e, m, -, rfl⟩
      · rw [if_neg htr, List.append_nil]
        exact ⟨hlen, pre, s₀, hpre, hprun, hpviews, hpev⟩
      · rw [if_pos htr]
        refine ⟨by simp [hlen], ?_⟩
        by_cases hk : k ≤ (views name received).length
        · refine ⟨pre, s₀, hpre, hprun, ?_, ?_⟩
          · rw [hpviews, List.take_append_of_le_length hk]
          · rw [hpev, List.take_append_of_le_length (hlen.ge.trans' hk)]
        · refine ⟨received ++ [c], _, List.prefix_rfl, hwhole, ?_, ?_⟩
          · rw [views_append, if_pos htr, List.take_of_length_le]
            simp only [List.length_append, List.length_singleton]
            omega
          · rw [List.take_of_length_le]
            simp only [List.length_append, List.length_singleton]
            omega

/-! ## A DAG in which one certificate comes late

Authority 2 reports a long delay in round 58: a validator that receives this certificate
after its own of round 60 does not count it. -/

open Toy

namespace Loads

def orderEarly : List (Certificate ℕ ℕ Unit) := early ++ [busy] ++ late

/-- The same in another order. -/
def orderSwapped : List (Certificate ℕ ℕ Unit) := early ++ [cert 59 0 0 ∅, busy, cert 60 1 0 ∅]

/-- The certificate with the long delay comes late. -/
def orderLate : List (Certificate ℕ ℕ Unit) := early ++ late ++ [busy]

def dag : CausalDag ℕ Unit settings.committee :=
  CausalDag.ofList orderEarly (by decide +kernel) (by decide +kernel) (by decide +kernel)
    (by decide +kernel) (by decide +kernel)

theorem delivery_orderEarly : Delivery dag orderEarly :=
  Delivery.ofList rfl (by decide +kernel) (by decide +kernel) (by decide +kernel)

theorem delivery_orderSwapped : Delivery dag orderSwapped :=
  Delivery.ofList (l := orderEarly) rfl (by decide +kernel) (by decide +kernel) (by decide +kernel)

theorem delivery_orderLate : Delivery dag orderLate :=
  Delivery.ofList (l := orderEarly) rfl (by decide +kernel) (by decide +kernel) (by decide +kernel)

/-- The migrations of a run that does not panic. -/
def migrations (name : ℕ) (received : List (Certificate ℕ ℕ Unit)) :
    Option (List (ℕ × Option (List (MigrationNotice ℕ)))) :=
  (balance settings name received).toOption.map fun s =>
    s.evaluations.map fun e => (e.round, e.migrations)

theorem migrations_orderEarly :
    migrations 0 orderEarly = some [(60, some [⟨2, 0⟩])] := by decide +kernel

theorem migrations_orderSwapped :
    migrations 1 orderSwapped = some [(60, some [⟨2, 0⟩])] := by decide +kernel

theorem migrations_orderLate : migrations 1 orderLate = some [(60, some [])] := by decide +kernel

theorem exists_evaluation {name : ℕ} {received : List (Certificate ℕ ℕ Unit)}
    {x : ℕ × Option (List (MigrationNotice ℕ))} (h : migrations name received = some [x]) :
    ∃ s e, balance settings name received = .ok s ∧ s.evaluations[0]? = some e ∧
      (e.round, e.migrations) = x := by
  obtain ⟨s, hs, hmap⟩ := Option.map_eq_some_iff.mp h
  obtain ⟨e, he, hx⟩ := List.map_eq_singleton_iff.mp hmap
  refine ⟨s, e, ?_, by rw [he]; rfl, hx⟩
  cases hrun : balance settings name received with
  | error e =>
      rw [hrun] at hs
      cases hs
  | ok s' =>
      rw [hrun] at hs
      rw [Option.some.inj hs]

theorem increasing_orderEarly : Increasing 0 orderEarly := by
  unfold Increasing
  decide +kernel

theorem increasing_orderSwapped : Increasing 1 orderSwapped := by
  unfold Increasing
  decide +kernel

theorem increasing_orderLate : Increasing 1 orderLate := by
  unfold Increasing
  decide +kernel

theorem views_orderEarly :
    views 0 orderEarly = [(60, viewOf (early ++ [busy, cert 59 0 0 ∅, cert 60 0 0 ∅]) 60)] := by
  have hnil : views 0 (early ++ [busy, cert 59 0 0 ∅]) = [] := views_eq_nil (by decide +kernel)
  have he : orderEarly =
      early ++ [busy, cert 59 0 0 ∅] ++ [cert 60 0 0 ∅] ++ [cert 60 1 0 ∅] := by
    simp [orderEarly, late]
  rw [he, views_append, if_neg (by decide), views_append, if_pos (by decide), hnil,
    List.append_nil, List.nil_append, List.append_assoc]
  rfl

theorem views_orderSwapped :
    views 1 orderSwapped = [(60, viewOf (early ++ [cert 59 0 0 ∅, busy, cert 60 1 0 ∅]) 60)] := by
  have hnil : views 1 (early ++ [cert 59 0 0 ∅, busy]) = [] := views_eq_nil (by decide +kernel)
  have he : orderSwapped = early ++ [cert 59 0 0 ∅, busy] ++ [cert 60 1 0 ∅] := by
    simp [orderSwapped]
  rw [he, views_append, if_pos (by decide), hnil, List.nil_append, List.append_assoc]
  rfl

/-- Both count the certificate with the long delay. -/
theorem views_eq : views 0 orderEarly = views 1 orderSwapped := by
  rw [views_orderEarly, views_orderSwapped]
  congr 2
  exact viewOf_congr (by decide +kernel) (by decide +kernel)

end Loads

/-! ## What two validators decide -/

variable [AsBytes PublicKey] [AsBytes Digest] [Sha512 Digest] [Inhabited PublicKey]
  [Inhabited Digest] [Inhabited Signature]

/-- Two validators that up to some evaluation evaluate in the same rounds, and have each
    time received the same certificates of the window, migrate the same accounts then and
    hold the same assignment afterwards. -/
theorem migrations_agree (cfg : BalancingSettings PublicKey)
    (D : CausalDag Digest Signature cfg.committee) (name name' : PublicKey)
    (received received' : List (Certificate PublicKey Digest Signature))
    (hd : Delivery D received) (hd' : Delivery D received')
    (hinc : Increasing name received) (hinc' : Increasing name' received')
    (s s' : Balancer PublicKey) (hrun : balance cfg name received = .ok s)
    (hrun' : balance cfg name' received' = .ok s') (i j : ℕ) (e e' : Evaluation PublicKey)
    (he : s.evaluations[i]? = some e) (he' : s'.evaluations[j]? = some e')
    (hviews : (views name received).take (i + 1) = (views name' received').take (j + 1)) :
    e.round = e'.round ∧ e.migrations = e'.migrations ∧
      e.currentAssignments = e'.currentAssignments := by
  have hne : NonEquivocating received :=
    fun x hx y hy => D.unique x (hd.mem x hx) y (hd.mem y hy)
  have hne' : NonEquivocating received' :=
    fun x hx y hy => D.unique x (hd'.mem x hx) y (hd'.mem y hy)
  obtain ⟨hlen, pre, s₀, hpre, hprun, hpviews, hpev⟩ := run_take hrun (i + 1)
  obtain ⟨hlen', pre', s₀', hpre', hprun', hpviews', hpev'⟩ := run_take hrun' (j + 1)
  obtain ⟨hi, -⟩ := List.getElem?_eq_some_iff.mp he
  obtain ⟨hj, -⟩ := List.getElem?_eq_some_iff.mp he'
  -- as many evaluations of the one as of the other
  obtain rfl : i = j := by
    have := congrArg List.length hviews
    simp only [List.length_take] at this
    omega
  have hsame := (same_of_views (hne.of_prefix hpre) (hne'.of_prefix hpre')
    (hinc.of_prefix hpre) (hinc'.of_prefix hpre') hprun hprun'
    (hpviews.trans (hviews.trans hpviews'.symm))).2
  rw [hpev, hpev'] at hsame
  have hget := congrArg (·[i]?) hsame
  simp only [List.getElem?_take_of_lt (Nat.lt_succ_self i), he, he', Option.some.injEq] at hget
  subst hget
  exact ⟨rfl, rfl, rfl⟩

/-- Authority 1 has received a certificate of the window later than authority 0. -/
theorem not_migrations_agree : Delivery Loads.dag Loads.orderEarly ∧
    Delivery Loads.dag Loads.orderLate ∧ Increasing 0 Loads.orderEarly ∧
    Increasing 1 Loads.orderLate ∧ ∃ s s' e e',
      balance Loads.settings 0 Loads.orderEarly = .ok s ∧
      balance Loads.settings 1 Loads.orderLate = .ok s' ∧
      s.evaluations[0]? = some e ∧ s'.evaluations[0]? = some e' ∧
      e.round = e'.round ∧ e.migrations ≠ e'.migrations := by
  obtain ⟨s, e, hrun, he, hx⟩ := Loads.exists_evaluation Loads.migrations_orderEarly
  obtain ⟨s', e', hrun', he', hx'⟩ := Loads.exists_evaluation Loads.migrations_orderLate
  obtain ⟨hround, hmigrations⟩ := Prod.mk.inj hx
  obtain ⟨hround', hmigrations'⟩ := Prod.mk.inj hx'
  refine ⟨Loads.delivery_orderEarly, Loads.delivery_orderLate, Loads.increasing_orderEarly,
    Loads.increasing_orderLate, s, s', e, e', hrun, hrun', he, he', hround.trans hround'.symm, ?_⟩
  rw [hmigrations, hmigrations']
  decide

/-- In another order that keeps the certificate before the evaluation, they agree. -/
theorem migrations_agree_sample : ∃ s s' e e',
    balance Loads.settings 0 Loads.orderEarly = .ok s ∧
    balance Loads.settings 1 Loads.orderSwapped = .ok s' ∧
    s.evaluations[0]? = some e ∧ s'.evaluations[0]? = some e' ∧
    e.round = e'.round ∧ e.migrations = e'.migrations ∧
    e.currentAssignments = e'.currentAssignments := by
  obtain ⟨s, e, hrun, he, -⟩ := Loads.exists_evaluation Loads.migrations_orderEarly
  obtain ⟨s', e', hrun', he', -⟩ := Loads.exists_evaluation Loads.migrations_orderSwapped
  exact ⟨s, s', e, e', hrun, hrun', he, he',
    migrations_agree Loads.settings Loads.dag 0 1 Loads.orderEarly Loads.orderSwapped
      Loads.delivery_orderEarly Loads.delivery_orderSwapped Loads.increasing_orderEarly
      Loads.increasing_orderSwapped s s' hrun hrun' 0 0 e e' he he' (congrArg _ Loads.views_eq)⟩

end DagBft.Consensus
