/-
  Overflow in the load-balancing task of consensus, over whole runs and whatever `f` of the
  authors report.

  The numbers of transactions and the medians of the timestamps stay in range
  (`Tracking.moderate`): what a certificate counts is bounded by its types, and `2f + 1` authors
  have a certificate in every round. The delays are not bounded. `arithmetic_safe_iff`: a run
  keeps in range if and only if, at each evaluation, each author's delays can be added up.
-/
import DagBft.Consensus.Arithmetic
import DagBft.Consensus.Causal
import Mathlib.Algebra.Order.BigOperators.Group.Multiset

namespace DagBft.Consensus

/-! ## The values of a window -/

section Window

variable {PublicKey Digest Signature V : Type} [LinearOrder PublicKey] [LinearOrder Digest]

/-- The certificates of a window, out of those of some author. -/
def inWindow (own : List (Certificate PublicKey Digest Signature)) (stableRound : ℕ) :
    List (Certificate PublicKey Digest Signature) :=
  own.filter fun c => InWindow stableRound c.round

/-- The certificates of an author. -/
def byAuthor (received : List (Certificate PublicKey Digest Signature)) (pk : PublicKey) :
    List (Certificate PublicKey Digest Signature) :=
  received.filter fun c => c.origin = pk

variable {rounds : Rounds PublicKey V} {b stableRound : ℕ}
  {received : List (Certificate PublicKey Digest Signature)}
  {val : Certificate PublicKey Digest Signature → V}

omit [LinearOrder PublicKey] in
/-- Round by round. -/
theorem inWindow_sum (own : List (Certificate PublicKey Digest Signature)) :
    ((inWindow own stableRound).map val : Multiset V) =
      ∑ r ∈ Finset.Icc (stableRound - trackingWindow) stableRound,
        ((own.filter fun c => c.round = r).map val : Multiset V) := by
  induction own with
  | nil => exact (Finset.sum_const_zero).symm
  | cons c own ih =>
      have hround : ∀ r, (((c :: own).filter fun c => c.round = r).map val : Multiset V) =
          (if c.round = r then {val c} else 0) +
            ((own.filter fun c => c.round = r).map val : Multiset V) := by
        intro r
        by_cases hr : c.round = r
        · rw [if_pos hr, List.filter_cons_of_pos (by simpa using hr), List.map_cons,
            ← Multiset.cons_coe, Multiset.singleton_add]
        · rw [if_neg hr, List.filter_cons_of_neg (by simpa using hr), zero_add]
      rw [Finset.sum_congr rfl fun r _ => hround r, Finset.sum_add_distrib, ← ih,
        Finset.sum_ite_eq]
      unfold inWindow
      by_cases hin : InWindow stableRound c.round
      · rw [if_pos (Finset.mem_Icc.mpr hin), List.filter_cons_of_pos (by simpa using hin),
          List.map_cons, ← Multiset.cons_coe, Multiset.singleton_add]
      · rw [if_neg fun h => hin (Finset.mem_Icc.mp h),
          List.filter_cons_of_neg (by simpa using hin), zero_add]

/-- What a tracker has of an author in a window is what its certificates say. -/
theorem valuesAt_window (hc : Covers rounds received b) (hh : Holds val rounds received b)
    (hne : NonEquivocating received) (hnodup : received.Nodup)
    (hb : b ≤ stableRound - trackingWindow) (pk : PublicKey) :
    HashMap.valuesAt (rounds.window stableRound) pk =
      ((inWindow (byAuthor received pk) stableRound).map val : Multiset V) := by
  have hkeys : (HashMap.retain rounds (InWindow stableRound)).keys ⊆
      Finset.Icc (stableRound - trackingWindow) stableRound := by
    intro r hr
    rw [Finmap.mem_keys, ← Finmap.lookup_isSome, HashMap.lookup_retain] at hr
    split at hr
    · rename_i hin
      exact Finset.mem_Icc.mpr hin
    · cases hr
  rw [inWindow_sum]
  unfold Rounds.window
  rw [HashMap.valuesAt_bind, HashMap.bind_entries _ _ _ hkeys]
  refine Finset.sum_congr rfl fun r hr => ?_
  have hin : InWindow stableRound r := Finset.mem_Icc.mp hr
  have hbr : b ≤ r := hb.trans hin.1
  have hmem : ∀ {c}, c ∈ (byAuthor received pk).filter (fun c => c.round = r) ↔
      c ∈ received ∧ c.origin = pk ∧ c.round = r := by
    intro c
    unfold byAuthor
    rw [List.mem_filter, List.mem_filter, decide_eq_true_eq, decide_eq_true_eq, and_assoc]
  rw [HashMap.lookup_retain, if_pos hin]
  cases hm : rounds.lookup r with
  | none =>
      have hnil : (byAuthor received pk).filter (fun c => c.round = r) = [] := by
        refine List.eq_nil_iff_forall_not_mem.mpr fun c h => ?_
        obtain ⟨hc', -, hround⟩ := hmem.mp h
        have := (hc.isSome r hbr).mpr ⟨c, hc', hround⟩
        rw [hm] at this
        cases this
      rw [hnil]
      rfl
  | some m =>
      show HashMap.valuesAt (m.entries.map fun y => (y.1, y.2)) pk = _
      rw [HashMap.valuesAt_entries]
      cases hv : m.lookup pk with
      | none =>
          have hnil : (byAuthor received pk).filter (fun c => c.round = r) = [] := by
            refine List.eq_nil_iff_forall_not_mem.mpr fun c h => ?_
            obtain ⟨hc', horigin, hround⟩ := hmem.mp h
            have := (hh r m hbr hm pk (val c)).mpr ⟨c, hc', hround, horigin, rfl⟩
            rw [hv] at this
            cases this
          rw [hnil]
          rfl
      | some v =>
          obtain ⟨c, hc', hround, horigin, rfl⟩ := (hh r m hbr hm pk v).mp hv
          -- one certificate of an author in a round
          have hone : (byAuthor received pk).filter (fun c => c.round = r) = [c] := by
            have hnodup' : ((byAuthor received pk).filter fun c => c.round = r).Nodup :=
              (hnodup.filter _).filter _
            refine List.perm_singleton.mp ((List.perm_ext_iff_of_nodup hnodup'
              (List.nodup_singleton c)).mpr fun x => ?_)
            rw [hmem, List.mem_singleton]
            constructor
            · rintro ⟨hx, hxo, hxr⟩
              exact hne x hx c hc' (hxr.trans hround.symm) (hxo.trans horigin.symm)
            · rintro rfl
              exact ⟨hc', horigin, hround⟩
          rw [hone]
          rfl

omit [LinearOrder PublicKey] in
/-- With at most one certificate in a round, and no more than `M` in each. -/
theorem sum_inWindow_le (stableRound : ℕ) {own : List (Certificate PublicKey Digest Signature)}
    (hone : (own.map Certificate.round).Nodup)
    (weight : Certificate PublicKey Digest Signature → ℕ) {M : ℕ} (hM : ∀ c ∈ own, weight c ≤ M) :
    (((inWindow own stableRound).map weight : List ℕ) : Multiset ℕ).sum ≤ 31 * M := by
  have hlen : (inWindow own stableRound).length ≤ 31 := by
    have hsub : ((inWindow own stableRound).map Certificate.round).toFinset ⊆
        Finset.Icc (stableRound - trackingWindow) stableRound := by
      intro r hr
      obtain ⟨c, hc, rfl⟩ := List.mem_map.mp (List.mem_toFinset.mp hr)
      exact Finset.mem_Icc.mpr (of_decide_eq_true (List.mem_filter.mp hc).2)
    have hnodup : ((inWindow own stableRound).map Certificate.round).Nodup :=
      hone.sublist (List.filter_sublist.map _)
    have hcard := Finset.card_le_card hsub
    rw [List.toFinset_card_of_nodup hnodup, List.length_map, Nat.card_Icc] at hcard
    have hwindow : trackingWindow = 30 := rfl
    omega
  rw [Multiset.sum_coe]
  have hsum := List.sum_le_card_nsmul ((inWindow own stableRound).map weight) M fun n hn => by
    obtain ⟨c, hc, rfl⟩ := List.mem_map.mp hn
    exact hM c (List.mem_filter.mp hc).1
  rw [List.length_map, smul_eq_mul] at hsum
  exact hsum.trans (Nat.mul_le_mul_right _ hlen)

/-! ## The account counts of a window -/

theorem lookup_perValidator (t : AccountDistributionTracker PublicKey) (stableRound : ℕ)
    (pk : PublicKey) :
    ((t.perValidatorAccountCounts stableRound).lookup pk).getD ∅ =
      HashMap.accumulate addU64 0 ((HashMap.valuesAt (t.dag.window stableRound) pk).bind
        fun x => (x.1.entries : Multiset (ℕ × ℕ))) ∅ := by
  unfold AccountDistributionTracker.perValidatorAccountCounts
  rw [HashMap.lookup_accumulate, HashMap.foldl_accumulate, Finmap.lookup_empty, Option.getD_none,
    HashMap.valuesAt_map (t.dag.window stableRound)
      (fun x => (x.1.entries : Multiset (ℕ × ℕ))) pk]
  split
  · rename_i hzero
    rw [Multiset.card_map] at hzero
    rw [Multiset.card_eq_zero.mp hzero]
    rfl
  · rfl

/-- The numbers of different keys add up to no more than all of them. -/
theorem sum_valuesAt_le {K : Type} [DecidableEq K] (s : Multiset (K × ℕ)) (keys : Finset K) :
    (keys.val.map fun k => (HashMap.valuesAt s k).sum).sum ≤ (s.map Prod.snd).sum := by
  show ∑ k ∈ keys, (HashMap.valuesAt s k).sum ≤ _
  induction s using Multiset.induction_on with
  | empty => simp
  | cons x s ih =>
      have hcons : ∀ k, (HashMap.valuesAt (x ::ₘ s) k).sum =
          (if x.1 = k then x.2 else 0) + (HashMap.valuesAt s k).sum := by
        intro k
        by_cases hk : x.1 = k
        · subst hk
          rw [if_pos rfl, HashMap.valuesAt_cons_self, Multiset.sum_cons]
        · rw [if_neg hk, HashMap.valuesAt_cons_of_ne s x.2 hk, zero_add]
      rw [Finset.sum_congr rfl fun k _ => hcons k, Finset.sum_add_distrib, Finset.sum_ite_eq,
        Multiset.map_cons, Multiset.sum_cons]
      refine Nat.add_le_add ?_ ih
      split
      · exact le_refl _
      · exact Nat.zero_le _

end Window

/-! ## What the types and the quorums bound -/

section Bounds

variable {PublicKey Digest Signature : Type} [LinearOrder PublicKey] [LinearOrder Digest]

/-- `account_counts` maps `u32` to `u16`. -/
def Typed (c : Certificate PublicKey Digest Signature) : Prop :=
  ∀ x ∈ c.header.accountCounts.entries, x.1 < 2 ^ 32 ∧ x.2 < 2 ^ 16

/-- The number of transactions that a certificate counts. -/
def countSum (c : Certificate PublicKey Digest Signature) : ℕ :=
  (c.header.accountCounts.entries.map Prod.snd).sum

omit [LinearOrder PublicKey] in
theorem Typed.countSum_le {c : Certificate PublicKey Digest Signature} (h : Typed c) :
    countSum c ≤ 2 ^ 48 := by
  have hkeys : c.header.accountCounts.keys.toFinset ⊆ Finset.range (2 ^ 32) := by
    intro k hk
    obtain ⟨x, hx, rfl⟩ := List.mem_map.mp (List.mem_toFinset.mp hk)
    exact Finset.mem_range.mpr (h x hx).1
  have hlen : c.header.accountCounts.entries.length ≤ 2 ^ 32 := by
    have := Finset.card_le_card hkeys
    rwa [List.toFinset_card_of_nodup c.header.accountCounts.nodup_keys, Finset.card_range,
      OrdMap.keys, List.length_map] at this
  have hsum := List.sum_le_card_nsmul (c.header.accountCounts.entries.map Prod.snd) (2 ^ 16)
    fun n hn => by
      obtain ⟨x, hx, rfl⟩ := List.mem_map.mp hn
      exact (h x hx).2.le
  rw [List.length_map, smul_eq_mul] at hsum
  calc countSum c ≤ c.header.accountCounts.entries.length * 2 ^ 16 := hsum
    _ ≤ 2 ^ 32 * 2 ^ 16 := Nat.mul_le_mul_right _ hlen

/-- A quorum of the committee has `2f + 1` authors, as when all stakes are equal. -/
def Tolerates (committee : Committee PublicKey) (f : ℕ) : Prop :=
  ∀ s : Finset PublicKey, committee.quorum ≤ committee.stakeOf s → 2 * f + 1 ≤ s.card

variable [AsBytes PublicKey] [AsBytes Digest] [Sha512 Digest] [Inhabited PublicKey]
  [Inhabited Digest] [Inhabited Signature] {committee : Committee PublicKey} {f : ℕ}
  {D : CausalDag Digest Signature committee}
  {received : List (Certificate PublicKey Digest Signature)}

/-- Every round before that of a certificate has been delivered from `2f + 1` authors. -/
theorem Delivery.exists_authors (htol : Tolerates committee f) (hd : Delivery D received)
    {c : Certificate PublicKey Digest Signature} (hc : c ∈ received) {r : ℕ} (hr : 1 ≤ r)
    (hrc : r < c.round) :
    ∃ s : Finset PublicKey, 2 * f + 1 ≤ s.card ∧
      ∀ a ∈ s, ∃ p ∈ received, p.round = r ∧ p.origin = a := by
  induction hround : c.round using Nat.strong_induction_on generalizing c with
  | _ n ih =>
      obtain ⟨s, hquorum, hs⟩ := D.quorum c (hd.mem c hc)
      have hcard := htol s hquorum
      have hparents : ∀ a ∈ s, ∃ p ∈ received, p.round + 1 = c.round ∧ p.origin = a := by
        intro a ha
        obtain ⟨p, hp, hpar, horigin⟩ := hs a ha
        obtain ⟨p', hp', hdigest, hpround⟩ := D.parents c (hd.mem c hc) _ hpar
        obtain rfl := D.digest_inj p' p hp' hp hdigest
        rcases hp with hp | hp
        · obtain ⟨pre, post, he⟩ := List.append_of_mem hc
          refine ⟨p', ?_, hpround, horigin⟩
          rw [he]
          exact List.mem_append_left _ (hd.causal pre c post he p' hp hpar)
        · have := Certificate.round_genesis hp
          omega
      rcases Nat.lt_or_ge (r + 1) c.round with hlt | hge
      · obtain ⟨a, ha⟩ := Finset.card_pos.mp (show 0 < s.card by omega)
        obtain ⟨p, hp, hpround, -⟩ := hparents a ha
        exact ih p.round (by omega) hp (by omega) rfl
      · refine ⟨s, hcard, fun a ha => ?_⟩
        obtain ⟨p, hp, hpround, horigin⟩ := hparents a ha
        exact ⟨p, hp, by omega, horigin⟩

variable {name : PublicKey} {t : Trackers PublicKey} {b : ℕ} {byzantine : Finset PublicKey}
  {c : Certificate PublicKey Digest Signature}

theorem Delivery.nonEquivocating (hd : Delivery D received) : NonEquivocating received :=
  fun x hx y hy => D.unique x (hd.mem x hx) y (hd.mem y hy)

/-- The median of a round before that of a certificate. -/
theorem Tracking.medianTsChecked_eq (ht : Tracking name received t b)
    (htol : Tolerates committee f) (hd : Delivery D received) (hfew : byzantine.card ≤ f)
    (hhonest : ∀ x ∈ received, x.origin ∉ byzantine → x.header.createdAt < 2 ^ 63)
    (hc : c ∈ received) {r : ℕ} (hbr : b ≤ r) (hrc : r < c.round)
    {v : HashMap PublicKey (ℕ × ℕ)} (hv : t.throughput.rounds.lookup r = some v) :
    medianTsChecked v = (medianTs v).mapError Trap.panic := by
  have hholds := (ht.holds hd.nonEquivocating).1 r v hbr hv
  obtain ⟨x, hx, hxr⟩ := (ht.rounds.isSome r hbr).mp (by rw [hv]; rfl)
  have hone : 1 ≤ r := hxr ▸ D.round_pos x (hd.mem x hx)
  obtain ⟨s, hcard, hs⟩ := hd.exists_authors htol hc hone hrc
  have hsub : s ⊆ v.keys := by
    intro a ha
    obtain ⟨p, hp, hpr, horigin⟩ := hs a ha
    exact Finmap.mem_keys.mpr
      (Finmap.mem_of_lookup_eq_some ((hholds a _).mpr ⟨p, hp, hpr, horigin, rfl⟩))
  obtain ⟨ts, hchecked, hmedian, -, -⟩ := median_robust f v byzantine
    ((Finset.card_le_card Finset.inter_subset_right).trans hfew)
    (hcard.trans (Finset.card_le_card hsub)) fun pk hpk w hw => by
      obtain ⟨y, hy, -, rfl, rfl⟩ := (hholds pk w).mp hw
      exact hhonest y hy hpk
  rw [hchecked, hmedian]
  rfl

/-- The trackers when an own certificate comes. -/
theorem Tracking.moderate (ht : Tracking name received t b) (htol : Tolerates committee f)
    (hd : Delivery D received) (hfew : byzantine.card ≤ f)
    (hhonest : ∀ x ∈ received, x.origin ∉ byzantine → x.header.createdAt < 2 ^ 63)
    (htyped : ∀ x ∈ received, Typed x) (hc : c ∈ received)
    (hb : b ≤ c.round - 2 - trackingWindow) (hround : 3 ≤ c.round) :
    Moderate t (c.round - 2) := by
  have hne := hd.nonEquivocating
  obtain ⟨hrounds, -, hdag⟩ := ht.holds hne
  have hone : ∀ pk, ((byAuthor received pk).map Certificate.round).Nodup := by
    intro pk
    refine (List.nodup_map_iff_inj_on (hd.nodup.filter _)).mpr fun x hx y hy hxy => ?_
    obtain ⟨hx, hxo⟩ := List.mem_filter.mp hx
    obtain ⟨hy, hyo⟩ := List.mem_filter.mp hy
    exact hne x hx y hy hxy ((of_decide_eq_true hxo).trans (of_decide_eq_true hyo).symm)
  have hcount : ∀ pk, ∀ x ∈ byAuthor received pk, countSum x ≤ 2 ^ 48 :=
    fun pk x hx => (htyped x (List.mem_filter.mp hx).1).countSum_le
  refine ⟨fun pk => ?_, fun r hin v hv => ?_, fun pk accounts => ?_⟩
  · rw [HashMap.valuesAt_map (t.throughput.rounds.window (c.round - 2)) (fun x => x.2) pk,
      valuesAt_window ht.rounds hrounds hne hd.nodup hb, Multiset.map_coe, List.map_map]
    have hle := sum_inWindow_le (c.round - 2) (hone pk) (fun x => (throughputOf x).2)
      fun x hx => (Nat.mod_le _ _).trans (hcount pk x hx)
    exact hle.trans_lt (by decide)
  · have hin' := hin.2
    exact ht.medianTsChecked_eq htol hd hfew hhonest hc (hb.trans hin.1) (by omega) hv
  · have hle : ∀ account, (((((t.accounts.perValidatorAccountCounts (c.round - 2)).lookup
        pk).getD ∅).lookup account).getD 0) ≤
        (HashMap.valuesAt ((HashMap.valuesAt (t.accounts.dag.window (c.round - 2)) pk).bind
          fun x => (x.1.entries : Multiset (ℕ × ℕ))) account).sum := by
      intro account
      rw [lookup_perValidator, lookup_tally]
      exact Nat.mod_le _ _
    refine (Multiset.sum_map_le_sum_map _ _ fun account _ => hle account).trans_lt ?_
    refine (sum_valuesAt_le _ accounts).trans_lt ?_
    rw [Multiset.map_bind, Multiset.sum_bind, valuesAt_window ht.dag hdag hne hd.nodup hb,
      Multiset.map_coe, List.map_map]
    have hle := sum_inWindow_le (c.round - 2) (hone pk) countSum (hcount pk)
    exact hle.trans_lt (by decide)

end Bounds

/-! ## Runs -/

section Runs

variable {PublicKey Digest Signature : Type} [LinearOrder PublicKey] [LinearOrder Digest]

/-- At each evaluation, no author has reported delays in the window that add up to `2 ^ 64` or
    more. -/
def DelaysFit (cfg : BalancingSettings PublicKey) (name : PublicKey)
    (received : List (Certificate PublicKey Digest Signature)) : Prop :=
  ∀ before c after s tps, received = before ++ c :: after → Triggers name c →
    balance cfg name before = .ok s →
    (s.trackers.record c).throughput.getTps (c.round - 2) = .ok (some tps) → ∀ pk,
      ((inWindow (byAuthor (before ++ [c]) pk) (c.round - 2)).map delayOf).sum < 2 ^ 64

variable {cfg : BalancingSettings PublicKey} {name : PublicKey}
  {received : List (Certificate PublicKey Digest Signature)}
  {c : Certificate PublicKey Digest Signature} {s : Balancer PublicKey}

theorem DelaysFit.of_append (h : DelaysFit cfg name (received ++ [c])) :
    DelaysFit cfg name received :=
  fun before x after s tps he => h before x (after ++ [c]) s tps (by rw [he]; simp)

theorem foldlM_concat {ε α β : Type} (f : β → α → Except ε β) (b : β) (l : List α) (a : α) :
    (l ++ [a]).foldlM f b = (l.foldlM f b >>= fun b' => f b' a) := by
  rw [List.foldlM_append]
  exact bind_congr fun b' => bind_pure _

theorem balance_append_eq :
    balance cfg name (received ++ [c]) =
      (balance cfg name received >>= fun s => onCertificate cfg name s c) := by
  unfold balance
  rw [bind_assoc]
  exact bind_congr fun s => foldlM_concat _ s received c

theorem balanceChecked_append :
    balanceChecked cfg name (received ++ [c]) =
      (balanceChecked cfg name received >>= fun s => onCertificateChecked cfg name s c) := by
  unfold balanceChecked
  rw [bind_assoc]
  exact bind_congr fun s => foldlM_concat _ s received c

variable [AsBytes PublicKey] [AsBytes Digest] [Sha512 Digest] [Inhabited PublicKey]
  [Inhabited Digest] [Inhabited Signature] {f : ℕ} {byzantine : Finset PublicKey}
  {D : CausalDag Digest Signature cfg.committee}

/-- What an authority has delivered when at most `f` authors report what they like. The others
    report the time. -/
structure Reported (D : CausalDag Digest Signature cfg.committee) (f : ℕ)
    (byzantine : Finset PublicKey) (name : PublicKey)
    (received : List (Certificate PublicKey Digest Signature)) : Prop where
  delivery : Delivery D received
  increasing : Increasing name received
  few : byzantine.card ≤ f
  honest : ∀ x ∈ received, x.origin ∉ byzantine → x.header.createdAt < 2 ^ 63
  typed : ∀ x ∈ received, Typed x

theorem Reported.of_append {rest : List (Certificate PublicKey Digest Signature)}
    (h : Reported D f byzantine name (received ++ rest)) :
    Reported D f byzantine name received where
  delivery := h.delivery.of_append
  increasing := by
    have := h.increasing
    unfold Increasing at *
    rw [List.filter_append, List.pairwise_append] at this
    exact this.1
  few := h.few
  honest x hx := h.honest x (List.mem_append_left _ hx)
  typed x hx := h.typed x (List.mem_append_left _ hx)

/-- The trackers with which an own certificate is handled. -/
theorem Reported.tracking (h : Reported D f byzantine name (received ++ [c]))
    (hrun : balance cfg name received = .ok s) (hc : c.origin = name) :
    ∃ b ≤ c.round - 2 - trackingWindow,
      Tracking name (received ++ [c]) (s.trackers.record c) b := by
  obtain ⟨b, ht⟩ := tracking_balance h.increasing.of_append hrun
  exact ⟨b, ht.bound.le h.increasing hc, ht.record⟩

theorem Reported.moderate (h : Reported D f byzantine name (received ++ [c]))
    (htol : Tolerates cfg.committee f) (hrun : balance cfg name received = .ok s)
    (hc : c.origin = name) (hround : c.round % trackingWindow = 0) :
    Moderate (s.trackers.record c) (c.round - 2) := by
  obtain ⟨b, hb, ht⟩ := h.tracking hrun hc
  have hmem : c ∈ received ++ [c] := by simp
  have hpos := D.round_pos c (h.delivery.mem c hmem)
  have hwindow : trackingWindow = 30 := rfl
  rw [hwindow] at hround
  exact ht.moderate htol h.delivery h.few h.honest h.typed hmem hb (by omega)

/-- The delays in the tracker are those of the certificates. -/
theorem Reported.delays (h : Reported D f byzantine name (received ++ [c]))
    (hrun : balance cfg name received = .ok s) (hc : c.origin = name) (pk : PublicKey) :
    HashMap.valuesAt ((s.trackers.record c).throughput.quorumStats.window (c.round - 2)) pk =
      ((inWindow (byAuthor (received ++ [c]) pk) (c.round - 2)).map delayOf : Multiset ℕ) := by
  obtain ⟨b, hb, ht⟩ := h.tracking hrun hc
  have hne := h.delivery.nonEquivocating
  exact valuesAt_window ht.quorumStats (ht.holds hne).2.1 hne h.delivery.nodup hb pk

theorem Reported.summableDelays_iff (h : Reported D f byzantine name (received ++ [c]))
    (hrun : balance cfg name received = .ok s) (hc : c.origin = name) :
    SummableDelays (s.trackers.record c) (c.round - 2) ↔ ∀ pk,
      ((inWindow (byAuthor (received ++ [c]) pk) (c.round - 2)).map delayOf).sum < 2 ^ 64 := by
  refine forall_congr' fun pk => ?_
  rw [h.delays hrun hc, Multiset.sum_coe]

/-- One certificate, while the delays fit. -/
theorem Reported.step_eq (h : Reported D f byzantine name (received ++ [c]))
    (htol : Tolerates cfg.committee f) (hsize : cfg.committee.size < 2 ^ 64)
    (hfit : DelaysFit cfg name (received ++ [c])) (hrun : balance cfg name received = .ok s) :
    onCertificateChecked cfg name s c = (onCertificate cfg name s c).mapError Trap.panic := by
  have hmem : c ∈ received ++ [c] := by simp
  refine onCertificateChecked_eq hsize ?_ (h.moderate htol hrun) fun htriggers tps htps => ?_
  · exact (h.typed c hmem).countSum_le.trans_lt (by decide)
  · exact (h.summableDelays_iff hrun htriggers.1).mpr
      (hfit received c [] s tps rfl htriggers hrun htps)

/-- Where the delays fit the checks change nothing. -/
theorem Reported.balanceChecked_eq (h : Reported D f byzantine name received)
    (htol : Tolerates cfg.committee f) (hsize : cfg.committee.size < 2 ^ 64)
    (hfit : DelaysFit cfg name received) :
    balanceChecked cfg name received = (balance cfg name received).mapError Trap.panic := by
  induction received using List.reverseRecOn with
  | nil =>
      unfold balanceChecked balance
      cases cfg.initial <;> rfl
  | append_singleton received c ih =>
      rw [balanceChecked_append, balance_append_eq, ih h.of_append hfit.of_append]
      cases hrun : balance cfg name received with
      | error e => rfl
      | ok s => exact h.step_eq htol hsize hfit hrun

/-- The first evaluation with delays that do not fit overflows. -/
theorem Reported.overflow (h : Reported D f byzantine name (received ++ [c]))
    (htol : Tolerates cfg.committee f) (hsize : cfg.committee.size < 2 ^ 64)
    (hfit : DelaysFit cfg name received) (htriggers : Triggers name c)
    (hrun : balance cfg name received = .ok s) {tps : HashMap PublicKey ℚ}
    (htps : (s.trackers.record c).throughput.getTps (c.round - 2) = .ok (some tps))
    {pk : PublicKey} (hpk : 2 ^ 64 ≤
      ((inWindow (byAuthor (received ++ [c]) pk) (c.round - 2)).map delayOf).sum) :
    balanceChecked cfg name (received ++ [c]) = .error .overflow := by
  have hmem : c ∈ received ++ [c] := by simp
  have hround : c.round % trackingWindow = 0 := by
    have hinterval := htriggers.2
    unfold trackingWindow
    unfold rerouteInterval at hinterval
    omega
  rw [balanceChecked_append, h.of_append.balanceChecked_eq htol hsize hfit, hrun]
  exact onCertificateChecked_overflow ((h.typed c hmem).countSum_le.trans_lt (by decide))
    (h.moderate htol hrun htriggers.1 hround) htriggers htps fun hsum =>
      absurd ((h.summableDelays_iff hrun htriggers.1).mp hsum pk) (not_lt.mpr hpk)

end Runs

/-! ## Four authorities, one of which reports delays of its choice

Authorities 0, 1 and 3 have a certificate in each round. In the rounds 30 and 31 authority 3
reports a delay `d`. -/

section Sample

open Toy

namespace Delays

def committee : Committee ℕ :=
  ⟨⟨[(0, ⟨1, []⟩), (1, ⟨1, []⟩), (2, ⟨1, []⟩), (3, ⟨1, []⟩)], Committee.sorted_four⟩⟩

def settings : BalancingSettings ℕ where
  committee := committee
  capacityByBw _ := 100
  latencyMatrix := ⟨[(0, ∅), (1, ∅), (2, ∅), (3, ∅)], by decide⟩
  accountRanges := ⟨[(0, (0, 1)), (1, (1, 1)), (2, (2, 1)), (3, (3, 1))], by decide⟩

/-- The digest of the certificate of `o` in round `r`. -/
def digestOf (r o : ℕ) : ℕ := Sha512.sha512 (voteBytes (if r = 0 then 0 else 4 * r + o) r o)

def cert (d r o : ℕ) : Certificate ℕ ℕ Unit where
  header :=
    { author := o, round := r, payload := ∅, accountCounts := ∅
      avgQueueDelayMs := if o = 3 ∧ (r = 30 ∨ r = 31) then d else 0, createdAt := r
      id := if r = 0 then 0 else 4 * r + o, signature := ()
      parents := OrdSet.ofList ([0, 1, 3].map (digestOf (r - 1))) }
  votes := []

/-- What authority 0 has delivered with its certificate of round 60. -/
def received (d : ℕ) : List (Certificate ℕ ℕ Unit) :=
  ((List.range 59).flatMap fun k => [0, 1, 3].map (cert d (k + 1))) ++ [cert d 60 0]

variable {d : ℕ} {c c' : Certificate ℕ ℕ Unit}

theorem mem_received : c ∈ received d ↔
    ∃ r o, 1 ≤ r ∧ ((r ≤ 59 ∧ o ∈ [0, 1, 3]) ∨ (r = 60 ∧ o = 0)) ∧ c = cert d r o := by
  unfold received
  rw [List.mem_append, List.mem_flatMap, List.mem_singleton]
  constructor
  · rintro (⟨k, hk, hc⟩ | rfl)
    · obtain ⟨o, ho, rfl⟩ := List.mem_map.mp hc
      have := List.mem_range.mp hk
      exact ⟨k + 1, o, by omega, Or.inl ⟨by omega, ho⟩, rfl⟩
    · exact ⟨60, 0, by decide, Or.inr ⟨rfl, rfl⟩, rfl⟩
  · rintro ⟨r, o, hr, ⟨hle, ho⟩ | ⟨rfl, rfl⟩, rfl⟩
    · refine Or.inl ⟨r - 1, List.mem_range.mpr (by omega), List.mem_map.mpr ⟨o, ho, ?_⟩⟩
      rw [Nat.sub_add_cancel hr]
    · exact Or.inr rfl

/-- The round and the author can be read off the digest. -/
theorem read_digestOf : ∀ r ≤ 60, ∀ o ∈ [0, 1, 2, 3],
    digestOf r o / 256 ^ 8 % 256 = r ∧ digestOf r o % 256 = o := by
  decide +kernel

theorem digestOf_inj {r r' o o' : ℕ} (hr : r ≤ 60) (hr' : r' ≤ 60) (ho : o ∈ [0, 1, 2, 3])
    (ho' : o' ∈ [0, 1, 2, 3]) (h : digestOf r o = digestOf r' o') : r = r' ∧ o = o' := by
  obtain ⟨h₁, h₂⟩ := read_digestOf r hr o ho
  obtain ⟨h₁', h₂'⟩ := read_digestOf r' hr' o' ho'
  rw [h] at h₁ h₂
  exact ⟨h₁.symm.trans h₁', h₂.symm.trans h₂'⟩

/-- A certificate that is delivered or of the genesis. -/
theorem vertex_cases (h : c ∈ received d ∨ c ∈ Certificate.genesis committee) :
    c.round ≤ 60 ∧ c.origin ∈ [0, 1, 2, 3] ∧ c.digest = digestOf c.round c.origin ∧
      (c ∈ received d ↔ 1 ≤ c.round) ∧ (1 ≤ c.round → c = cert d c.round c.origin) ∧
      (c.round = 0 → c ∈ Certificate.genesis committee) := by
  rcases h with h | h
  · obtain ⟨r, o, hr, hro, rfl⟩ := mem_received.mp h
    have hround : (cert d r o).round = r := rfl
    refine ⟨?_, ?_, rfl, iff_of_true h hr, fun _ => rfl, fun h0 => ?_⟩
    · omega
    · show o ∈ _
      rcases hro with ⟨-, ho⟩ | ⟨-, rfl⟩
      · fin_cases ho <;> decide
      · decide
    · omega
  · have h0 := Certificate.round_genesis h
    have hgenesis := h
    obtain ⟨name, hname, rfl⟩ := Certificate.mem_genesis.mp h
    refine ⟨by omega, hname, rfl, ⟨fun hr => ?_, fun h1 => by omega⟩, fun h1 => by omega,
      fun _ => hgenesis⟩
    obtain ⟨r, o, hr1, -, he⟩ := mem_received.mp hr
    have : r = 0 := (congrArg Certificate.round he).symm.trans h0
    omega

/-- The parents of a certificate. -/
theorem mem_parents {r o n : ℕ} :
    n ∈ (cert d r o).header.parents ↔ ∃ a ∈ [0, 1, 3], digestOf (r - 1) a = n := by
  show n ∈ OrdSet.ofList _ ↔ _
  rw [OrdSet.mem_def, OrdSet.mem_ofList, List.mem_map]

/-- The vertex of a round up to the 59th. -/
theorem exists_vertex {r a : ℕ} (hr : r ≤ 59) (ha : a ∈ [0, 1, 3]) :
    ∃ p, (p ∈ received d ∨ p ∈ Certificate.genesis committee) ∧ p.digest = digestOf r a ∧
      p.round = r ∧ p.origin = a := by
  rcases Nat.eq_zero_or_pos r with rfl | hpos
  · refine ⟨⟨{ (default : Header ℕ ℕ Unit) with author := a }, []⟩, Or.inr ?_, rfl, rfl, rfl⟩
    exact Certificate.mem_genesis.mpr ⟨a, by fin_cases ha <;> decide, rfl⟩
  · exact ⟨cert d r a, Or.inl (mem_received.mpr ⟨r, a, hpos, Or.inl ⟨hr, ha⟩, rfl⟩), rfl, rfl, rfl⟩

def dag (d : ℕ) : CausalDag ℕ Unit committee where
  certs := { c | c ∈ received d }
  round_pos c hc := ((vertex_cases (Or.inl hc)).2.2.2.1).mp hc
  unique c hc c' hc' hround horigin := by
    obtain ⟨-, -, -, hpos, he, -⟩ := vertex_cases (d := d) (Or.inl hc)
    obtain ⟨-, -, -, hpos', he', -⟩ := vertex_cases (d := d) (Or.inl hc')
    rw [he (hpos.mp hc), he' (hpos'.mp hc'), hround, horigin]
  digest_inj c c' hc hc' hdigest := by
    obtain ⟨hr, ho, hd, hpos, he, hg⟩ := vertex_cases (d := d) hc
    obtain ⟨hr', ho', hd', hpos', he', hg'⟩ := vertex_cases (d := d) hc'
    rw [hd, hd'] at hdigest
    obtain ⟨hround, horigin⟩ := digestOf_inj hr hr' ho ho' hdigest
    rcases Nat.eq_zero_or_pos c.round with h0 | h1
    · obtain ⟨name, -, rfl⟩ := Certificate.mem_genesis.mp (hg h0)
      obtain ⟨name', -, rfl⟩ := Certificate.mem_genesis.mp (hg' (hround.symm.trans h0))
      obtain rfl : name = name' := horigin
      rfl
    · rw [he h1, he' (hround ▸ h1), hround, horigin]
  parents c hc n hn := by
    obtain ⟨r, o, hr, hro, rfl⟩ := mem_received.mp hc
    obtain ⟨a, ha, rfl⟩ := mem_parents.mp hn
    obtain ⟨p, hp, hdigest, hround, -⟩ := exists_vertex (d := d) (show r - 1 ≤ 59 by omega) ha
    exact ⟨p, hp, hdigest, by rw [hround]; exact Nat.sub_add_cancel hr⟩
  quorum c hc := by
    obtain ⟨r, o, hr, hro, rfl⟩ := mem_received.mp hc
    refine ⟨{0, 1, 3}, by decide, fun a ha => ?_⟩
    have ha' : a ∈ [0, 1, 3] := by simpa using ha
    obtain ⟨p, hp, hdigest, -, horigin⟩ := exists_vertex (d := d) (show r - 1 ≤ 59 by omega) ha'
    exact ⟨p, hp, hdigest ▸ mem_parents.mpr ⟨a, ha', rfl⟩, horigin⟩

/-- The certificates come in the order of their rounds. -/
theorem sorted_received (d : ℕ) : (received d).Pairwise fun c c' => c.header.id < c'.header.id := by
  have hids : (received d).map (fun c => c.header.id) = (received 0).map fun c => c.header.id := rfl
  have hsorted : ((received 0).map fun c => c.header.id).Pairwise (· < ·) := by decide +kernel
  rw [← hids, List.pairwise_map] at hsorted
  exact hsorted

theorem delivery (d : ℕ) : Delivery (dag d) (received d) where
  nodup := (sorted_received d).imp fun {c c'} h he => by
    rw [he] at h
    exact lt_irrefl _ h
  mem _ hc := hc
  causal pre c post he p hp hpar := by
    have hc : c ∈ received d := by rw [he]; simp
    obtain ⟨hr, ho, hdigest, -, hform, -⟩ := vertex_cases (d := d) (Or.inl hp)
    obtain ⟨r, o, hr1, hro, rfl⟩ := mem_received.mp hc
    obtain ⟨a, ha, hpa⟩ := mem_parents.mp hpar
    rw [hdigest] at hpa
    have ha' : a ∈ [0, 1, 2, 3] := by fin_cases ha <;> decide
    obtain ⟨hround, -⟩ := digestOf_inj (show r - 1 ≤ 60 by omega) hr ha' ho hpa
    -- a certificate of a lower round is not after `c`
    have hid : p.header.id < (cert d r o).header.id := by
      have hpos := (vertex_cases (d := d) (Or.inl hp)).2.2.2.1.mp hp
      have ho3 : p.origin ≤ 3 := by
        simp only [List.mem_cons, List.not_mem_nil, or_false] at ho
        omega
      rw [hform hpos]
      show (if p.round = 0 then 0 else 4 * p.round + p.origin) < if r = 0 then 0 else 4 * r + o
      rw [if_neg (by omega), if_neg (by omega)]
      omega
    have hsorted := sorted_received d
    rw [he, List.pairwise_append, List.pairwise_cons] at hsorted
    have hmem : p ∈ received d := hp
    rw [he, List.mem_append, List.mem_cons] at hmem
    rcases hmem with hmem | rfl | hmem
    · exact hmem
    · exact absurd hid (lt_irrefl _)
    · exact absurd (hsorted.2.1.1 p hmem) (not_lt.mpr hid.le)

theorem reported (d : ℕ) :
    @Reported _ _ _ _ _ settings _ _ _ _ _ _ (dag d) 1 {3} 0 (received d) where
  delivery := delivery d
  increasing := by
    refine ((sorted_received d).filter _).imp_of_mem fun {c c'} hc hc' hid => ?_
    obtain ⟨hc, ho⟩ := List.mem_filter.mp hc
    obtain ⟨hc', ho'⟩ := List.mem_filter.mp hc'
    obtain ⟨r, o, hr, -, rfl⟩ := mem_received.mp hc
    obtain ⟨r', o', hr', -, rfl⟩ := mem_received.mp hc'
    obtain rfl : o = 0 := of_decide_eq_true ho
    obtain rfl : o' = 0 := of_decide_eq_true ho'
    have hid : (if r = 0 then 0 else 4 * r + 0) < if r' = 0 then 0 else 4 * r' + 0 := hid
    rw [if_neg (by omega), if_neg (by omega)] at hid
    show r < r'
    omega
  few := by decide
  honest c hc _ := by
    obtain ⟨r, o, hr, hro, rfl⟩ := mem_received.mp hc
    show r < 2 ^ 63
    omega
  typed c hc x hx := by
    obtain ⟨r, o, -, -, rfl⟩ := mem_received.mp hc
    cases hx

/-- Twice `2 ^ 63` is too much. -/
theorem overflow : (match balanceChecked settings 0 (received (2 ^ 63)) with
    | .error e => decide (e = .overflow)
    | .ok _ => false) = true := by
  decide +kernel

end Delays

end Sample

end DagBft.Consensus
