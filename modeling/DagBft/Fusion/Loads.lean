/-
  The load bound of the new scheduler (`worker/src/batch_executor.rs`).

  `maxAllowed` is computed with doubles: it grows with the number of transactions
  (`maxAllowed_mono`), and as many transactions fit (`le_mul_maxAllowed`).
  `bestExecutor_lower` and `scheduleDynamic_lower` compare two bounds: a lower one gives the
  same schedule if no executor exceeds it. `scheduleDynamic_le`: no executor exceeds the bound
  if the transactions fit.
-/
import DagBft.Fusion.Agreement
import DagBft.Lib.Rounding
import Mathlib.Data.List.GetD

namespace DagBft.Fusion

open Worker

/-! ## The bound -/

theorem maxAllowed_mono {k k' : ℕ} (n : ℕ) (h : k ≤ k') : maxAllowed k n ≤ maxAllowed k' n := by
  have hk : (0 : ℚ) ≤ k := Nat.cast_nonneg k
  have hn : 0 ≤ Double.round n := Double.round_nonneg (Nat.cast_nonneg n)
  have hround : Double.round k ≤ Double.round k' :=
    Double.round_le_round hk (Nat.cast_le.mpr h)
  have hshare : Double.round (Double.round k / Double.round n) ≤
      Double.round (Double.round k' / Double.round n) :=
    Double.round_le_round (div_nonneg (Double.round_nonneg hk) hn)
      (div_le_div_of_nonneg_right hround hn)
  have hpos : 0 ≤ Double.round (Double.round k / Double.round n) :=
    Double.round_nonneg (div_nonneg (Double.round_nonneg hk) hn)
  unfold maxAllowed
  refine Int.toNat_le_toNat (Int.ceil_mono (Double.round_le_round (by linarith) ?_))
  linarith

theorem normal_of_le {x : ℚ} (h : 1 / 2 ^ 40 ≤ x) : (2 : ℚ) ^ (-1022 : ℤ) ≤ x := by
  refine le_trans ?_ h
  calc (2 : ℚ) ^ (-1022 : ℤ) ≤ (2 : ℚ) ^ (-40 : ℤ) :=
        zpow_le_zpow_right₀ (by norm_num) (by norm_num)
    _ = 1 / 2 ^ 40 := by norm_num

/-- The rounding errors are far below the factor of 1.5. -/
theorem le_mul_maxAllowed (k : ℕ) {n : ℕ} (hn : 0 < n) (hn32 : n < 2 ^ 32) :
    k ≤ n * maxAllowed k n := by
  rcases Nat.eq_zero_or_pos k with rfl | hk
  · exact Nat.zero_le _
  have hk1 : (1 : ℚ) ≤ k := by exact_mod_cast hk
  have hn1 : (1 : ℚ) ≤ n := by exact_mod_cast hn
  have hn2 : (n : ℚ) < 2 ^ 32 := by exact_mod_cast hn32
  obtain ⟨hK, -⟩ := Double.round_bounds (normal_of_le (x := k) (by norm_num; linarith))
  obtain ⟨hN, hN'⟩ := Double.round_bounds (normal_of_le (x := n) (by norm_num; linarith))
  have hNpos : 0 < Double.round n := by
    refine lt_of_lt_of_le ?_ hN
    norm_num
    linarith
  -- the quotient, before it is rounded
  have hq : (k : ℚ) * (1 - 1 / 2 ^ 53) / (n * (1 + 1 / 2 ^ 53)) ≤
      Double.round k / Double.round n := by
    rw [div_le_div_iff₀ (by positivity) hNpos]
    have hpos : (0 : ℚ) ≤ k * (1 - 1 / 2 ^ 53) := by
      norm_num
    calc (k : ℚ) * (1 - 1 / 2 ^ 53) * Double.round n
        ≤ k * (1 - 1 / 2 ^ 53) * (n * (1 + 1 / 2 ^ 53)) := by gcongr
      _ ≤ Double.round k * (n * (1 + 1 / 2 ^ 53)) := by gcongr
  have hsmall : (1 : ℚ) / 2 ^ 34 ≤ k * (1 - 1 / 2 ^ 53) / (n * (1 + 1 / 2 ^ 53)) := by
    rw [div_le_div_iff₀ (by positivity) (by positivity)]
    norm_num
    linarith
  have hqsmall := hsmall.trans hq
  obtain ⟨hshare, -⟩ := Double.round_bounds
    (normal_of_le (le_trans (by norm_num) hqsmall))
  have hsharesmall : (1 : ℚ) / 2 ^ 40 ≤
      Double.round (Double.round k / Double.round n) * (3 / 2) := by
    norm_num at hqsmall hshare ⊢
    linarith
  obtain ⟨hprod, -⟩ := Double.round_bounds (normal_of_le hsharesmall)
  have hceil : Double.round (Double.round (Double.round k / Double.round n) * (3 / 2)) ≤
      (maxAllowed k n : ℚ) := by
    unfold maxAllowed
    refine (Int.le_ceil _).trans ?_
    exact_mod_cast Int.self_le_toNat _
  have hshare' : k * (1 - 1 / 2 ^ 53) / (n * (1 + 1 / 2 ^ 53)) * (1 - 1 / 2 ^ 53) * (3 / 2) *
      (1 - 1 / 2 ^ 53) ≤ (maxAllowed k n : ℚ) := by
    refine le_trans ?_ (hprod.trans hceil)
    norm_num at hq hshare ⊢
    linarith
  have hfinal : (k : ℚ) ≤ n * maxAllowed k n := by
    calc (k : ℚ) ≤ k * ((1 - 1 / 2 ^ 53) * (1 - 1 / 2 ^ 53) * (3 / 2) * (1 - 1 / 2 ^ 53) /
            (1 + 1 / 2 ^ 53)) := by
          norm_num
          linarith
      _ = n * (k * (1 - 1 / 2 ^ 53) / (n * (1 + 1 / 2 ^ 53)) * (1 - 1 / 2 ^ 53) * (3 / 2) *
            (1 - 1 / 2 ^ 53)) := by
          field_simp
      _ ≤ n * maxAllowed k n := by gcongr
  exact_mod_cast hfinal

/-! ## The best vote -/

/-- A vote that the loop prefers: more accounts, then less load, then the lower id. -/
def Preferred (load : ℕ → ℕ) (x y : ℕ × ℕ) : Prop :=
  y.2 < x.2 ∨ x.2 = y.2 ∧ load x.1 < load y.1 ∨ x.2 = y.2 ∧ load x.1 = load y.1 ∧ x.1 < y.1

variable {load : ℕ → ℕ} {bound bound' : ℕ} {votes : List (ℕ × ℕ)}

/-- The loop over the votes from a best one on: what it ends with is one of those with load to
    spare, and no other is preferred to it. -/
structure Best (load : ℕ → ℕ) (bound : ℕ) (votes : List (ℕ × ℕ)) (best : Option (ℕ × ℕ))
    (result : Option (ℕ × ℕ)) : Prop where
  none : result = none → best = none ∧ ∀ x ∈ votes, bound ≤ load x.1
  mem : ∀ b ∈ result, b ∈ best ∨ (b.2, b.1) ∈ votes ∧ load b.2 < bound
  votes : ∀ b ∈ result, ∀ x ∈ votes, load x.1 < bound → ¬ Preferred load x (b.2, b.1)
  best : ∀ b ∈ result, ∀ b' ∈ best, ¬ Preferred load (b'.2, b'.1) (b.2, b.1)

theorem not_preferred_trans {x y z : ℕ × ℕ} (h : ¬ Preferred load x y)
    (h' : ¬ Preferred load y z) : ¬ Preferred load x z := by
  unfold Preferred at *
  omega

theorem best_stepVote (best : Option (ℕ × ℕ)) (x : ℕ × ℕ) :
    Best load bound [x] best (stepVote bound load best x) := by
  unfold stepVote
  by_cases hx : load x.1 < bound
  · rw [if_pos hx]
    cases best with
    | none => exact ⟨by simp, by simp [hx], by simp [Preferred], by simp⟩
    | some c =>
        dsimp only
        split
        · refine ⟨by simp, by simp [hx], by simp [Preferred], ?_⟩
          simp only [Option.mem_some_iff, forall_eq', Preferred]
          omega
        · refine ⟨by simp, by simp, ?_, by simp [Preferred]⟩
          simp only [Option.mem_some_iff, forall_eq', List.mem_singleton, forall_eq, Preferred]
          omega
  · rw [if_neg hx]
    refine ⟨fun h => ⟨h, by simpa using hx⟩, fun b hb => Or.inl hb, by simp [hx],
      fun b hb b' hb' => ?_⟩
    obtain rfl := Option.mem_unique hb hb'
    simp [Preferred]

theorem Best.append {votes' : List (ℕ × ℕ)} {best result result' : Option (ℕ × ℕ)}
    (h : Best load bound votes best result) (h' : Best load bound votes' result result') :
    Best load bound (votes ++ votes') best result' where
  none hr := by
    obtain ⟨hresult, hall'⟩ := h'.none hr
    obtain ⟨hbest, hall⟩ := h.none hresult
    exact ⟨hbest, fun x hx => (List.mem_append.mp hx).elim (hall x) (hall' x)⟩
  mem b hb := by
    rcases h'.mem b hb with hb | ⟨hb, hlt⟩
    · exact (h.mem b hb).imp_right fun ⟨hb, hlt⟩ => ⟨List.mem_append_left _ hb, hlt⟩
    · exact Or.inr ⟨List.mem_append_right _ hb, hlt⟩
  votes b hb x hx hlt := by
    rcases List.mem_append.mp hx with hx | hx
    · cases hresult : result with
      | none => exact absurd hlt (Nat.not_lt.mpr ((h.none hresult).2 x hx))
      | some c =>
          exact not_preferred_trans (h.votes c hresult x hx hlt) (h'.best b hb c hresult)
    · exact h'.votes b hb x hx hlt
  best b hb b' hb' := by
    cases hresult : result with
    | none =>
        rw [(h.none hresult).1] at hb'
        cases hb'
    | some c => exact not_preferred_trans (h.best c hresult b' hb') (h'.best b hb c hresult)

theorem best_foldl (load : ℕ → ℕ) (bound : ℕ) (votes : List (ℕ × ℕ)) (best : Option (ℕ × ℕ)) :
    Best load bound votes best (votes.foldl (stepVote bound load) best) := by
  induction votes generalizing best with
  | nil =>
      refine ⟨fun h => ⟨h, by simp⟩, fun b hb => Or.inl hb, by simp, fun b hb b' hb' => ?_⟩
      obtain rfl := Option.mem_unique hb hb'
      simp [Preferred]
  | cons x votes ih => exact (best_stepVote best x).append (ih _)

/-- With a lower bound the loop finds the same, if that has load to spare under it. -/
theorem foldl_lower (h : bound' ≤ bound)
    (hlt : ∀ b ∈ votes.foldl (stepVote bound load) none, load b.2 < bound') :
    votes.foldl (stepVote bound' load) none = votes.foldl (stepVote bound load) none := by
  have hbest := best_foldl load bound votes none
  have hbest' := best_foldl load bound' votes none
  generalize votes.foldl (stepVote bound load) none = r at hlt hbest
  generalize votes.foldl (stepVote bound' load) none = r' at hbest'
  cases r with
  | none =>
      cases r' with
      | none => rfl
      | some b' =>
          have hmem := (hbest'.mem b' rfl).resolve_left (by simp)
          have := (hbest.none rfl).2 _ hmem.1
          dsimp only at this
          omega
  | some b =>
      have hmem := (hbest.mem b rfl).resolve_left (by simp)
      cases r' with
      | none =>
          have := (hbest'.none rfl).2 _ hmem.1
          have := hlt b rfl
          dsimp only at *
          omega
      | some b' =>
          -- each of the two is not preferred to the other
          have hmem' := (hbest'.mem b' rfl).resolve_left (by simp)
          have hnot := hbest.votes b rfl _ hmem'.1 (lt_of_lt_of_le hmem'.2 h)
          have hnot' := hbest'.votes b' rfl _ hmem.1 (hlt b rfl)
          unfold Preferred at hnot hnot'
          dsimp only at hnot hnot'
          exact congrArg some (Prod.ext (by omega) (by omega))

theorem bestExecutor_eq_ok {loads : List ℕ} {best : Option ℕ} :
    bestExecutor bound loads votes = .ok best ↔ (∀ x ∈ votes, x.1 < loads.length) ∧
      best = (votes.foldl (stepVote bound fun e => loads.getD e 0) none).map Prod.snd := by
  rw [bestExecutor_eq]
  split
  · rename_i h
    rw [and_iff_right h, Except.ok.injEq, eq_comm]
  · rename_i h
    exact ⟨fun he => (by cases he), fun he => absurd he.1 h⟩

theorem bestExecutor_lower {loads : List ℕ} {best : Option ℕ} (h : bound' ≤ bound)
    (hbest : bestExecutor bound loads votes = .ok best)
    (hlt : ∀ e ∈ best, loads.getD e 0 < bound') :
    bestExecutor bound' loads votes = .ok best := by
  obtain ⟨hvotes, rfl⟩ := bestExecutor_eq_ok.mp hbest
  refine bestExecutor_eq_ok.mpr ⟨hvotes, ?_⟩
  rw [foldl_lower h fun b hb => hlt b.2 (Option.mem_map_of_mem _ hb)]

/-- The executor that the votes are for has load to spare. -/
theorem lt_of_bestExecutor {loads : List ℕ} {e : ℕ}
    (h : bestExecutor bound loads votes = .ok (some e)) :
    e < loads.length ∧ loads.getD e 0 < bound := by
  obtain ⟨hvotes, hsome⟩ := bestExecutor_eq_ok.mp h
  obtain ⟨b, hb, rfl⟩ := Option.map_eq_some_iff.mp hsome.symm
  obtain ⟨hmem, hlt⟩ := ((best_foldl _ _ _ none).mem b hb).resolve_left (by simp)
  exact ⟨hvotes _ hmem, hlt⟩

/-! ## The loads of a schedule -/

/-- The transactions that go to an executor. -/
def loadIn (txs : List Scheduled) (e : ℕ) : ℕ := txs.countP fun tx => tx.target = e

theorem loadIn_cons (tx : Scheduled) (txs : List Scheduled) (e : ℕ) :
    loadIn (tx :: txs) e = loadIn txs e + if tx.target = e then 1 else 0 := by
  unfold loadIn
  rw [List.countP_cons]
  simp only [decide_eq_true_eq]

theorem getD_set_succ {loads : List ℕ} {target : ℕ} (h : target < loads.length) (e : ℕ) :
    (loads.set target (loads.getD target 0 + 1)).getD e 0 =
      loads.getD e 0 + if target = e then 1 else 0 := by
  by_cases he : target = e
  · subst he
    simp [List.getD, h]
  · simp [List.getD, he]

theorem sum_set_succ {loads : List ℕ} {target : ℕ} (h : target < loads.length) :
    (loads.set target (loads.getD target 0 + 1)).sum = loads.sum + 1 := by
  induction loads generalizing target with
  | nil => simp at h
  | cons load loads ih =>
      cases target with
      | zero =>
          simp only [List.set_cons_zero, List.sum_cons, List.getD_cons_zero]
          omega
      | succ target =>
          have := ih (Nat.lt_of_succ_lt_succ h)
          simp only [List.set_cons_succ, List.sum_cons, List.getD_cons_succ, this]
          omega

/-- The first executor with the least load has at most the average. -/
theorem mul_le_sum_of_leastLoaded {loads : List ℕ} {e : ℕ} (h : leastLoaded loads = .ok e) :
    e < loads.length ∧ loads.length * loads.getD e 0 ≤ loads.sum := by
  unfold leastLoaded at h
  cases hmin : loads.min? with
  | none =>
      rw [hmin] at h
      cases h
  | some load =>
      rw [hmin] at h
      obtain rfl := Except.ok.inj h
      have hmem : load ∈ loads := List.min?_mem hmin
      have hlt : loads.idxOf load < loads.length := List.idxOf_lt_length_of_mem hmem
      have hle : ∀ x ∈ loads, load ≤ x := fun x hx => List.le_min?_iff hmin |>.mp le_rfl x hx
      refine ⟨hlt, ?_⟩
      rw [List.getD_eq_getElem _ _ hlt, List.getElem_idxOf hlt]
      exact List.card_nsmul_le_sum loads load hle

variable {iter : Iteration} {partition localUpdates : Partition} {loads : List ℕ}
  {transactions : List Bytes} {txs : List Scheduled} {i : ℕ}

/-- What the new scheduler does with the next transaction: it goes to the executor that the
    votes are for, or to the one with the least load. -/
theorem scheduleDynamic_cons {txBytes : Bytes}
    (h : scheduleDynamic iter bound partition i localUpdates loads (txBytes :: transactions) =
      .ok txs) :
    TransactionHeader.parse txBytes = none ∧
      scheduleDynamic iter bound partition (i + 1) localUpdates loads transactions = .ok txs ∨
    ∃ header requiredAccounts votes best target rest,
      TransactionHeader.parse txBytes = some header ∧
      extractRequiredAccounts txBytes = .ok requiredAccounts ∧
      countVotes partition localUpdates requiredAccounts [] = .ok votes ∧
      bestExecutor bound loads (iter.votes i votes) = .ok best ∧
      (best = some target ∨ best = none ∧ leastLoaded loads = .ok target) ∧
      target < loads.length ∧
      scheduleDynamic iter bound partition (i + 1)
        (fun a => if a ∈ requiredAccounts then some target else localUpdates a)
        (loads.set target (loads.getD target 0 + 1)) transactions = .ok rest ∧
      txs = ⟨txBytes, header, requiredAccounts, target⟩ :: rest := by
  unfold scheduleDynamic at h
  cases hheader : TransactionHeader.parse txBytes with
  | none =>
      rw [hheader] at h
      exact Or.inl ⟨rfl, h⟩
  | some header =>
      rw [hheader] at h
      dsimp only at h
      obtain ⟨requiredAccounts, hreq, h⟩ := bind_eq_ok.mp h
      obtain ⟨votes, hvotes, h⟩ := bind_eq_ok.mp h
      obtain ⟨best, hbest, h⟩ := bind_eq_ok.mp h
      obtain ⟨target, htarget, h⟩ : ∃ target,
          (best = some target ∨ best = none ∧ leastLoaded loads = .ok target) ∧
          (do
            let load ← loadOf loads target
            let result ← scheduleDynamic iter bound partition (i + 1)
              (fun a => if a ∈ requiredAccounts then some target else localUpdates a)
              (loads.set target (load + 1)) transactions
            .ok (⟨txBytes, header, requiredAccounts, target⟩ :: result) :
            Except Panic (List Scheduled)) = .ok txs := by
        cases best with
        | none =>
            obtain ⟨target, htarget, h⟩ := bind_eq_ok.mp h
            exact ⟨target, Or.inr ⟨rfl, htarget⟩, h⟩
        | some e => exact ⟨e, Or.inl rfl, h⟩
      obtain ⟨load, hload, h₁⟩ := bind_eq_ok.mp h
      obtain ⟨rest, hrest, h₂⟩ := bind_eq_ok.mp h₁
      rw [loadOf_eq] at hload
      split at hload
      · rename_i hlt
        obtain rfl := Except.ok.inj hload
        exact Or.inr ⟨header, requiredAccounts, votes, best, target, rest, rfl, hreq, hvotes,
          hbest, htarget, hlt, hrest, (Except.ok.inj h₂).symm⟩
      · cases hload

/-- The converse. -/
theorem scheduleDynamic_of_cons {txBytes : Bytes} {header : TransactionHeader}
    {requiredAccounts : List ℕ} {votes : List (ℕ × ℕ)} {best : Option ℕ} {target : ℕ}
    {rest : List Scheduled} (hheader : TransactionHeader.parse txBytes = some header)
    (hreq : extractRequiredAccounts txBytes = .ok requiredAccounts)
    (hvotes : countVotes partition localUpdates requiredAccounts [] = .ok votes)
    (hbest : bestExecutor bound loads (iter.votes i votes) = .ok best)
    (htarget : best = some target ∨ best = none ∧ leastLoaded loads = .ok target)
    (hlt : target < loads.length)
    (hrest : scheduleDynamic iter bound partition (i + 1)
      (fun a => if a ∈ requiredAccounts then some target else localUpdates a)
      (loads.set target (loads.getD target 0 + 1)) transactions = .ok rest) :
    scheduleDynamic iter bound partition i localUpdates loads (txBytes :: transactions) =
      .ok (⟨txBytes, header, requiredAccounts, target⟩ :: rest) := by
  unfold scheduleDynamic
  simp only [hheader, hreq, hvotes, hbest, bind, Except.bind]
  rcases htarget with rfl | ⟨rfl, hleast⟩
  · simp only [loadOf_eq, hlt, if_true, hrest]
  · simp only [hleast, loadOf_eq, hlt, if_true, hrest]

/-- A lower bound that no executor exceeds changes nothing. -/
theorem scheduleDynamic_lower (h : bound' ≤ bound)
    (hok : scheduleDynamic iter bound partition i localUpdates loads transactions = .ok txs)
    (hfit : ∀ e, loads.getD e 0 + loadIn txs e ≤ bound') :
    scheduleDynamic iter bound' partition i localUpdates loads transactions = .ok txs := by
  induction transactions generalizing i localUpdates loads txs with
  | nil =>
      unfold scheduleDynamic at hok ⊢
      exact hok
  | cons txBytes transactions ih =>
      rcases scheduleDynamic_cons hok with ⟨hheader, hrest⟩ | ⟨header, requiredAccounts, votes,
        best, target, rest, hheader, hreq, hvotes, hbest, htarget, hlt, hrest, rfl⟩
      · unfold scheduleDynamic
        rw [hheader]
        exact ih hrest hfit
      · have htargetFit := hfit target
        rw [loadIn_cons, if_pos rfl] at htargetFit
        refine scheduleDynamic_of_cons hheader hreq hvotes (bestExecutor_lower h hbest ?_) htarget
          hlt (ih hrest fun e => ?_)
        · intro e he
          rcases htarget with rfl | ⟨rfl, -⟩
          · obtain rfl : target = e := by simpa using he
            omega
          · cases he
        · have := hfit e
          rw [loadIn_cons] at this
          dsimp only at this
          rw [getD_set_succ hlt]
          omega

/-- No executor exceeds a bound under which the transactions fit. -/
theorem scheduleDynamic_le {n : ℕ} (hloads : loads.length = n)
    (hok : scheduleDynamic iter bound partition i localUpdates loads transactions = .ok txs)
    (hle : ∀ e, loads.getD e 0 ≤ bound) (hsum : loads.sum + txs.length ≤ n * bound) (e : ℕ) :
    loads.getD e 0 + loadIn txs e ≤ bound := by
  induction transactions generalizing i localUpdates loads txs with
  | nil =>
      unfold scheduleDynamic at hok
      obtain rfl := Except.ok.inj hok
      exact hle e
  | cons txBytes transactions ih =>
      rcases scheduleDynamic_cons hok with ⟨-, hrest⟩ | ⟨header, requiredAccounts, votes,
        best, target, rest, -, -, -, hbest, htarget, hlt, hrest, rfl⟩
      · exact ih hloads hrest hle hsum
      · rw [List.length_cons] at hsum
        have hload : loads.getD target 0 < bound := by
          rcases htarget with rfl | ⟨-, hleast⟩
          · exact (lt_of_bestExecutor hbest).2
          · -- the least load is below the average
            have hmul := (mul_le_sum_of_leastLoaded hleast).2
            rw [hloads] at hmul
            exact lt_of_mul_lt_mul_left (show n * loads.getD target 0 < n * bound by omega)
              (Nat.zero_le n)
        have hnext : (loads.set target (loads.getD target 0 + 1)).getD e 0 + loadIn rest e ≤
            bound := by
          refine ih (by simpa using hloads) hrest (fun e' => ?_) (by rw [sum_set_succ hlt]; omega)
          rw [getD_set_succ hlt]
          split
          · rename_i heq
            rw [← heq]
            omega
          · exact hle e'
        rw [getD_set_succ hlt] at hnext
        rw [loadIn_cons]
        dsimp only
        omega

end DagBft.Fusion
