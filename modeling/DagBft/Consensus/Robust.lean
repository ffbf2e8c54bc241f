/-
  What a minority of false reports can do to the medians of the load balancer
  (`consensus/src/lib.rs`).

  A report is kept for each validator; those of `byzantine` are arbitrary. `median_robust`:
  with `2f + 1` timestamps the median of a round is between two honest ones, and the sum of
  the two in the middle does not overflow. `threshold_robust_iff`: the threshold of the
  donors has the same property unless there are exactly `2f` delays, as the guard of
  `compute_rerouting` allows, and the `f` false ones are above the others.
-/
import DagBft.Consensus.Rerouting
import DagBft.Lib.Ranks

namespace DagBft.Consensus

/-- What stops a build with overflow checks. -/
inductive Trap
  | overflow
  | divisionByZero
  | panic (p : BalancingPanic)
deriving DecidableEq, Repr

/-- `+` on `u64`, with the check. -/
def addChecked (m n : ℕ) : Except Trap ℕ :=
  if m + n < 2 ^ 64 then .ok (m + n) else .error .overflow

/-- `-` on unsigned integers, with the check. -/
def subChecked (m n : ℕ) : Except Trap ℕ := if n ≤ m then .ok (m - n) else .error .overflow

section Median

variable {PublicKey : Type} [LinearOrder PublicKey]

/-- `medianTs`, with overflow checks. -/
def medianTsChecked (validators : HashMap PublicKey (ℕ × ℕ)) : Except Trap ℕ :=
  let timestamps := sorted (· ≤ ·) (validators.entries.map fun x => x.2.1)
  let n := timestamps.length
  if n = 0 then .error (.panic .emptyRound)
  else if n % 2 = 1 then .ok (timestamps.getD (n / 2) 0)
  else do
    let lower ← subChecked (n / 2) 1
    let sum ← addChecked (timestamps.getD lower 0) (timestamps.getD (n / 2) 0)
    .ok (sum / 2)

end Median

/-! ## Honest and false reports -/

section Split

variable {PublicKey V α : Type} [LinearOrder PublicKey] [LinearOrder α]
  (reports : HashMap PublicKey V) (byzantine : Finset PublicKey) (val : V → α)

/-- The honest values. -/
def honestValues : Multiset α :=
  (reports.entries.filter fun x => x.1 ∉ byzantine).map fun x => val x.2

/-- The false ones. -/
def falseValues : Multiset α :=
  (reports.entries.filter fun x => ¬ x.1 ∉ byzantine).map fun x => val x.2

omit [LinearOrder α] in
theorem honest_add_false :
    honestValues reports byzantine val + falseValues reports byzantine val =
      reports.entries.map fun x => val x.2 := by
  unfold honestValues falseValues
  rw [← Multiset.map_add, Multiset.filter_add_not]

omit [LinearOrder α] in
theorem card_falseValues :
    (falseValues reports byzantine val).card = (reports.keys ∩ byzantine).card := by
  have hkeys : (reports.keys ∩ byzantine).val =
      (reports.entries.filter fun x => ¬ x.1 ∉ byzantine).map Sigma.fst := by
    rw [← Finset.filter_mem_eq_inter]
    show (reports.entries.map Sigma.fst).filter (· ∈ byzantine) = _
    rw [Multiset.filter_map]
    simp only [Function.comp_def, not_not]
  unfold falseValues
  rw [Multiset.card_map, ← Multiset.card_map Sigma.fst, ← hkeys]
  rfl

omit [LinearOrder PublicKey] [LinearOrder α] in
theorem card_values : (reports.entries.map fun x => val x.2).card = reports.keys.card := by
  show _ = (reports.entries.map Sigma.fst).card
  rw [Multiset.card_map, Multiset.card_map]

variable {reports byzantine val} {a : α}

omit [LinearOrder α] in
theorem mem_honestValues : a ∈ honestValues reports byzantine val ↔
    ∃ pk ∉ byzantine, ∃ v, reports.lookup pk = some v ∧ val v = a := by
  unfold honestValues
  simp only [Multiset.mem_map, Multiset.mem_filter]
  constructor
  · rintro ⟨⟨pk, v⟩, ⟨hmem, hpk⟩, ha⟩
    exact ⟨pk, hpk, v, Finmap.lookup_eq_some_iff.mpr hmem, ha⟩
  · rintro ⟨pk, hpk, v, hv, ha⟩
    exact ⟨⟨pk, v⟩, ⟨Finmap.lookup_eq_some_iff.mp hv, hpk⟩, ha⟩

omit [LinearOrder α] in
theorem mem_falseValues : a ∈ falseValues reports byzantine val ↔
    ∃ pk ∈ byzantine, ∃ v, reports.lookup pk = some v ∧ val v = a := by
  unfold falseValues
  simp only [Multiset.mem_map, Multiset.mem_filter, not_not]
  constructor
  · rintro ⟨⟨pk, v⟩, ⟨hmem, hpk⟩, ha⟩
    exact ⟨pk, hpk, v, Finmap.lookup_eq_some_iff.mpr hmem, ha⟩
  · rintro ⟨pk, hpk, v, hv, ha⟩
    exact ⟨⟨pk, v⟩, ⟨Finmap.lookup_eq_some_iff.mp hv, hpk⟩, ha⟩

variable {i : ℕ}

variable (byzantine val)

/-- Where more values follow than are false, an honest one follows. -/
theorem exists_honest_ge
    (hi : i < (sorted (· ≤ ·) (reports.entries.map fun x => val x.2)).length)
    (hfew : (reports.keys ∩ byzantine).card < reports.keys.card - i) :
    ∃ a ∈ honestValues reports byzantine val,
      (sorted (· ≤ ·) (reports.entries.map fun x => val x.2))[i] ≤ a := by
  refine exists_good_ge (honest_add_false reports byzantine val) hi ?_
  rwa [card_falseValues, card_values]

theorem exists_honest_le
    (hi : i < (sorted (· ≤ ·) (reports.entries.map fun x => val x.2)).length)
    (hfew : (reports.keys ∩ byzantine).card < i + 1) :
    ∃ a ∈ honestValues reports byzantine val,
      a ≤ (sorted (· ≤ ·) (reports.entries.map fun x => val x.2))[i] := by
  refine exists_good_le (honest_add_false reports byzantine val) hi ?_
  rwa [card_falseValues]

end Split

/-! ## The median of the timestamps -/

section Median

variable {PublicKey : Type} [LinearOrder PublicKey]

/-- If at most `f` of at least `2f + 1` timestamps are false then the median lies between two
    honest ones, and its computation does not overflow. -/
theorem median_robust (f : ℕ) (validators : HashMap PublicKey (ℕ × ℕ))
    (byzantine : Finset PublicKey) (hfew : (validators.keys ∩ byzantine).card ≤ f)
    (hlen : 2 * f + 1 ≤ validators.keys.card)
    (hhonest : ∀ pk ∉ byzantine, ∀ v, validators.lookup pk = some v → v.1 < 2 ^ 63) :
    ∃ t, medianTsChecked validators = .ok t ∧ medianTs validators = .ok t ∧
      (∃ pk ∉ byzantine, ∃ v, validators.lookup pk = some v ∧ v.1 ≤ t) ∧
      ∃ pk ∉ byzantine, ∃ v, validators.lookup pk = some v ∧ t ≤ v.1 := by
  have hlength : (sorted (· ≤ ·) (validators.entries.map fun x => x.2.1)).length =
      validators.keys.card := by
    rw [length_sorted]
    exact card_values validators Prod.fst
  have hge : ∀ i (hi : i < (sorted (· ≤ ·) (validators.entries.map fun x => x.2.1)).length),
      i ≤ validators.keys.card / 2 →
      ∃ pk ∉ byzantine, ∃ v, validators.lookup pk = some v ∧
        (sorted (· ≤ ·) (validators.entries.map fun x => x.2.1))[i] ≤ v.1 := by
    intro i hi hhalf
    obtain ⟨a, ha, hle⟩ := exists_honest_ge byzantine Prod.fst hi (by omega)
    obtain ⟨pk, hpk, v, hv, rfl⟩ := mem_honestValues.mp ha
    exact ⟨pk, hpk, v, hv, hle⟩
  have hle : ∀ i (hi : i < (sorted (· ≤ ·) (validators.entries.map fun x => x.2.1)).length),
      f ≤ i → ∃ pk ∉ byzantine, ∃ v, validators.lookup pk = some v ∧
        v.1 ≤ (sorted (· ≤ ·) (validators.entries.map fun x => x.2.1))[i] := by
    intro i hi hfi
    obtain ⟨a, ha, hle⟩ := exists_honest_le byzantine Prod.fst hi (by omega)
    obtain ⟨pk, hpk, v, hv, rfl⟩ := mem_honestValues.mp ha
    exact ⟨pk, hpk, v, hv, hle⟩
  have hsorted := pairwise_sorted (validators.entries.map fun x => x.2.1)
  unfold medianTsChecked medianTs
  generalize sorted (· ≤ ·) (validators.entries.map fun x => x.2.1) = timestamps at *
  have hhalf : timestamps.length / 2 < timestamps.length := by omega
  have hne : timestamps.length ≠ 0 := by omega
  dsimp only
  rw [if_neg hne, if_neg hne, List.getD_eq_getElem _ _ hhalf]
  by_cases hodd : timestamps.length % 2 = 1
  · rw [if_pos hodd, if_pos hodd]
    exact ⟨_, rfl, rfl, hle _ hhalf (by omega), hge _ hhalf (by omega)⟩
  · -- the two in the middle
    have hlower : timestamps.length / 2 - 1 < timestamps.length := by omega
    have hmid : timestamps[timestamps.length / 2 - 1] ≤ timestamps[timestamps.length / 2] :=
      List.pairwise_iff_getElem.mp hsorted _ _ hlower hhalf (by omega)
    obtain ⟨lo, hlo, v, hv, hvle⟩ := hle _ hlower (by omega)
    obtain ⟨hi, hhi, w, hw, hwle⟩ := hge _ hhalf (by omega)
    have hw63 := hhonest hi hhi w hw
    have hsum : timestamps[timestamps.length / 2 - 1] + timestamps[timestamps.length / 2] <
        2 ^ 64 := by omega
    rw [if_neg hodd, if_neg hodd, List.getD_eq_getElem _ _ hlower]
    refine ⟨(timestamps[timestamps.length / 2 - 1] + timestamps[timestamps.length / 2]) / 2,
      ?_, ?_, ⟨lo, hlo, v, hv, ?_⟩, hi, hhi, w, hw, ?_⟩
    · have hone : 1 ≤ timestamps.length / 2 := by omega
      simp only [subChecked, if_pos hone, bind, Except.bind, addChecked]
      rw [List.getD_eq_getElem _ _ hlower, if_pos hsum]
    · unfold addU64 u64
      rw [Nat.mod_eq_of_lt hsum]
    · omega
    · omega

/-- The second of three timestamps is false. -/
theorem median_robust_sample : ∃ t,
    medianTsChecked (Finmap.insert 0 (5, 0) (Finmap.insert 1 (2 ^ 64 - 1, 0)
      (Finmap.insert 2 (7, 0) ∅)) : HashMap ℕ (ℕ × ℕ)) = .ok t ∧ 5 ≤ t ∧ t ≤ 7 := by
  have hlookup : ∀ pk ∉ ({1} : Finset ℕ), ∀ v, (Finmap.insert 0 (5, 0)
      (Finmap.insert 1 (2 ^ 64 - 1, 0) (Finmap.insert 2 (7, 0) ∅)) :
        HashMap ℕ (ℕ × ℕ)).lookup pk = some v → 5 ≤ v.1 ∧ v.1 ≤ 7 := by
    intro pk hpk v hv
    simp only [HashMap.lookup_insert_eq, Finmap.lookup_empty] at hv
    split at hv
    · obtain rfl := Option.some.inj hv
      decide
    · split at hv
      · rename_i hone
        exact absurd (Finset.mem_singleton.mpr hone) hpk
      · split at hv
        · obtain rfl := Option.some.inj hv
          decide
        · cases hv
  obtain ⟨t, ht, -, ⟨lo, hlo, v, hv, hle⟩, hi, hhi, w, hw, hge⟩ :=
    median_robust 1 (Finmap.insert 0 (5, 0) (Finmap.insert 1 (2 ^ 64 - 1, 0)
      (Finmap.insert 2 (7, 0) ∅)) : HashMap ℕ (ℕ × ℕ)) {1} (by decide) (by decide)
      fun pk hpk v hv => (hlookup pk hpk v hv).2.trans_lt (by decide)
  exact ⟨t, ht, (hlookup lo hlo v hv).1.trans hle, hge.trans (hlookup hi hhi w hw).2⟩

end Median

/-! ## The threshold of the donors -/

section Threshold

variable {PublicKey : Type} [LinearOrder PublicKey]

theorem threshDelay_eq_ok {i : Report PublicKey} {t : ℚ} : i.threshDelay = .ok t ↔
    (sorted (· ≤ ·) (i.avgQueueDelay.entries.map Sigma.snd))[(sorted (· ≤ ·)
      (i.avgQueueDelay.entries.map Sigma.snd)).length / 2]? = some t := by
  unfold Report.threshDelay
  dsimp only
  split
  · rename_i hnone
    simp [hnone]
  · rename_i d hd
    simp [hd]

/-- As few delays as the guard lets through, with as many false ones as there may be, all above
    the others. -/
def Lifted (i : Report PublicKey) (byzantine : Finset PublicKey) : Prop :=
  i.avgQueueDelay.keys.card = 2 * i.f ∧ (i.avgQueueDelay.keys ∩ byzantine).card = i.f ∧
    ∀ pk ∉ byzantine, ∀ d, i.avgQueueDelay.lookup pk = some d →
      ∀ pk' ∈ byzantine, ∀ d', i.avgQueueDelay.lookup pk' = some d' → d < d'

/-- Past the guard the threshold is there and lies between two honest delays, unless the
    false delays lift it. -/
theorem threshold_robust_iff (i : Report PublicKey) (byzantine : Finset PublicKey)
    (hfew : (i.avgQueueDelay.keys ∩ byzantine).card ≤ i.f)
    (hguard : ¬ i.avgQueueDelay.keys.card < 2 * i.f) :
    (∃ t, i.threshDelay = .ok t ∧
      (∃ pk ∉ byzantine, ∃ d, i.avgQueueDelay.lookup pk = some d ∧ d ≤ t) ∧
      ∃ pk ∉ byzantine, ∃ d, i.avgQueueDelay.lookup pk = some d ∧ t ≤ d) ↔
      ¬ Lifted i byzantine := by
  have hlength : (sorted (· ≤ ·) (i.avgQueueDelay.entries.map Sigma.snd)).length =
      i.avgQueueDelay.keys.card := by
    rw [length_sorted]
    exact card_values i.avgQueueDelay id
  have hsplit : honestValues i.avgQueueDelay byzantine id +
      falseValues i.avgQueueDelay byzantine id = i.avgQueueDelay.entries.map Sigma.snd :=
    honest_add_false i.avgQueueDelay byzantine id
  have hfalse := card_falseValues i.avgQueueDelay byzantine id
  have hcard : (i.avgQueueDelay.entries.map Sigma.snd).card = i.avgQueueDelay.keys.card :=
    card_values i.avgQueueDelay id
  have hhonest : (honestValues i.avgQueueDelay byzantine id).card +
      (falseValues i.avgQueueDelay byzantine id).card = i.avgQueueDelay.keys.card := by
    rw [← Multiset.card_add, hsplit, hcard]
  constructor
  · rintro ⟨t, ht, -, pk, hpk, d, hd, htd⟩ ⟨htwo, hall, habove⟩
    obtain ⟨hi, rfl⟩ := List.getElem?_eq_some_iff.mp (threshDelay_eq_ok.mp ht)
    have hvalues : ∀ g ∈ honestValues i.avgQueueDelay byzantine id,
        ∀ b ∈ falseValues i.avgQueueDelay byzantine id, g < b := by
      intro g hg b hb
      obtain ⟨pk, hpk, d, hd, rfl⟩ := mem_honestValues.mp hg
      obtain ⟨pk', hpk', d', hd', rfl⟩ := mem_falseValues.mp hb
      exact habove pk hpk d hd pk' hpk' d' hd'
    exact absurd htd (not_le.mpr (good_lt_of_above hsplit hi (by omega) hvalues
      (mem_honestValues.mpr ⟨pk, hpk, d, hd, rfl⟩)))
  · intro hlifted
    have hpos : 0 < i.avgQueueDelay.keys.card := by
      by_contra hzero
      -- `f` is 0 and nothing is false
      refine hlifted ⟨by omega, by omega, fun pk hpk d hd => ?_⟩
      exact absurd (Finset.card_pos.mpr
        ⟨pk, Finmap.mem_keys.mpr (Finmap.mem_of_lookup_eq_some hd)⟩) hzero
    have hi : (sorted (· ≤ ·) (i.avgQueueDelay.entries.map Sigma.snd)).length / 2 <
        (sorted (· ≤ ·) (i.avgQueueDelay.entries.map Sigma.snd)).length := by omega
    refine ⟨_, threshDelay_eq_ok.mpr (List.getElem?_eq_getElem hi), ?_, ?_⟩
    · obtain ⟨a, ha, hle⟩ := exists_honest_le byzantine id hi (by omega)
      obtain ⟨pk, hpk, d, hd, rfl⟩ := mem_honestValues.mp ha
      exact ⟨pk, hpk, d, hd, hle⟩
    · by_contra hnone
      have hbelow : ∀ g ∈ honestValues i.avgQueueDelay byzantine id,
          ¬ (sorted (· ≤ ·) (i.avgQueueDelay.entries.map Sigma.snd))[(sorted (· ≤ ·)
            (i.avgQueueDelay.entries.map Sigma.snd)).length / 2] ≤ g := by
        intro g hg hle
        obtain ⟨pk, hpk, d, hd, rfl⟩ := mem_honestValues.mp hg
        exact hnone ⟨pk, hpk, d, hd, hle⟩
      have hreach := card_sub_le_countP_bad hsplit hi hbelow
      have hfit := hreach.trans (Multiset.countP_le_card _ _)
      have habove := good_lt_bad hsplit hi (by omega) hbelow
      refine hlifted ⟨by omega, by omega, fun pk hpk d hd pk' hpk' d' hd' => ?_⟩
      exact habove d (mem_honestValues.mpr ⟨pk, hpk, d, hd, rfl⟩) d'
        (mem_falseValues.mpr ⟨pk', hpk', d', hd', rfl⟩)

/-- Two of four validators have a delay in the map, and the one of 100 ms is false. -/
def twoDelays : Report ℕ where
  tps := ∅
  capacities _ := none
  avgQueueDelay := Finmap.insert 0 1 (Finmap.insert 1 100 ∅)
  accountLatency _ := none
  perValidatorAccountCounts := ∅
  sortedKeys := [0, 1, 2, 3]
  f := 1
  lastMigrated := ∅
  currentRound := 60
  prevAvgQd := ∅
  deltaTSecs := 1

theorem twoDelays_lookup {pk : ℕ} (hpk : pk ∉ ({1} : Finset ℕ)) {d : ℚ}
    (hd : twoDelays.avgQueueDelay.lookup pk = some d) : d = 1 := by
  unfold twoDelays at hd
  simp only [HashMap.lookup_insert_eq, Finmap.lookup_empty] at hd
  split at hd
  · exact (Option.some.inj hd).symm
  · rw [if_neg fun h => hpk (Finset.mem_singleton.mpr h)] at hd
    cases hd

theorem threshold_robust_iff_sample : Lifted twoDelays {1} := by
  by_contra hnot
  obtain ⟨t, ht, -, pk, hpk, d, hd, htd⟩ :=
    (threshold_robust_iff twoDelays {1} (by decide) (by decide)).mpr hnot
  obtain rfl : 100 = t := Except.ok.inj ht
  rw [twoDelays_lookup hpk hd] at htd
  exact absurd htd (by norm_num)

/-- With two delays one liar among four validators lifts the threshold above the honest
    delay. -/
theorem threshold_not_robust : ¬ ∀ (i : Report ℕ) (byzantine : Finset ℕ),
    3 * i.f + 1 ≤ i.sortedKeys.length → i.avgQueueDelay.keys ⊆ i.sortedKeys.toFinset →
    (i.avgQueueDelay.keys ∩ byzantine).card ≤ i.f →
    ¬ i.avgQueueDelay.keys.card < 2 * i.f →
    ∃ t, i.threshDelay = .ok t ∧
      (∃ pk ∉ byzantine, ∃ d, i.avgQueueDelay.lookup pk = some d ∧ d ≤ t) ∧
      ∃ pk ∉ byzantine, ∃ d, i.avgQueueDelay.lookup pk = some d ∧ t ≤ d := by
  intro h
  obtain ⟨t, ht, -, pk, hpk, d, hd, htd⟩ :=
    h twoDelays {1} (by decide) (by decide) (by decide) (by decide)
  obtain rfl : 100 = t := Except.ok.inj ht
  rw [twoDelays_lookup hpk hd] at htd
  exact absurd htd (by norm_num)

end Threshold

end DagBft.Consensus
