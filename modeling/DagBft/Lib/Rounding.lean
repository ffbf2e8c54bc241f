/-
  Rounding to doubles (`Lib/Double`) is monotone, and its relative error is at most `2 ^ -53`
  from the smallest normal number on.

  `exists_round`: a positive number lies between two powers of two, and is rounded to a
  multiple of a unit that they determine.
-/
import DagBft.Lib.Double
import Mathlib.Algebra.Order.Floor.Ring
import Mathlib.Algebra.Order.Field.Power
import Mathlib.Tactic.FieldSimp
import Mathlib.Tactic.GCongr
import Mathlib.Tactic.Linarith
import Mathlib.Tactic.Positivity
import Mathlib.Tactic.Ring

namespace Double

variable {x y : ℚ}

/-! ## The nearest integer -/

theorem floor_le_roundEven (x : ℚ) : ⌊x⌋ ≤ roundEven x := by
  unfold roundEven
  dsimp only
  split_ifs
  all_goals omega

theorem roundEven_le_floor_add_one (x : ℚ) : roundEven x ≤ ⌊x⌋ + 1 := by
  unfold roundEven
  dsimp only
  split_ifs
  all_goals omega

theorem roundEven_mono (h : x ≤ y) : roundEven x ≤ roundEven y := by
  have hfloor : ⌊x⌋ ≤ ⌊y⌋ := Int.floor_mono h
  by_cases heq : ⌊x⌋ = ⌊y⌋
  · -- the same two candidates
    unfold roundEven
    rw [heq]
    dsimp only
    have hrest : x - ⌊y⌋ ≤ y - ⌊y⌋ := by linarith
    split_ifs
    all_goals first | omega | (exfalso; linarith)
  · have hx := roundEven_le_floor_add_one x
    have hy := floor_le_roundEven y
    omega

theorem roundEven_intCast (n : ℤ) : roundEven n = n := by
  unfold roundEven
  rw [Int.floor_intCast, sub_self]
  exact if_pos (by norm_num)

theorem abs_roundEven_sub_le (x : ℚ) : |(roundEven x : ℚ) - x| ≤ 1 / 2 := by
  have hle := Int.floor_le x
  have hlt := Int.lt_floor_add_one x
  rw [abs_le]
  unfold roundEven
  dsimp only
  split_ifs
  all_goals
    push_cast
    constructor
    all_goals linarith

/-! ## The unit -/

theorem pow2_eq (n : ℤ) : pow2 n = (2 : ℚ) ^ n := by
  unfold pow2
  by_cases h : 0 ≤ n
  · rw [if_pos h]
    conv_rhs => rw [← Int.toNat_of_nonneg h]
    rw [zpow_natCast]
  · rw [if_neg h]
    have hneg : n = -((-n).toNat : ℤ) := by omega
    conv_rhs => rw [hneg]
    rw [zpow_neg, zpow_natCast, one_div]

theorem log2_bounds {n : ℕ} (h : n ≠ 0) :
    (2 : ℚ) ^ (Nat.log2 n : ℤ) ≤ n ∧ (n : ℚ) < (2 : ℚ) ^ (Nat.log2 n + 1 : ℤ) := by
  constructor
  · rw [zpow_natCast]
    exact_mod_cast Nat.log2_self_le h
  · have := Nat.lt_log2_self (n := n)
    rw [show (Nat.log2 n + 1 : ℤ) = ((Nat.log2 n + 1 : ℕ) : ℤ) by push_cast; rfl, zpow_natCast]
    exact_mod_cast this

/-- The lengths of numerator and denominator give the exponent, up to one. -/
theorem guess_bounds (hx : 0 < x) :
    (2 : ℚ) ^ ((Nat.log2 x.num.natAbs - Nat.log2 x.den : ℤ) - 1) < x ∧
      x < (2 : ℚ) ^ ((Nat.log2 x.num.natAbs - Nat.log2 x.den : ℤ) + 1) := by
  have hnum : 0 < x.num := Rat.num_pos.mpr hx
  have hn : x.num.natAbs ≠ 0 := by omega
  obtain ⟨hnle, hnlt⟩ := log2_bounds hn
  obtain ⟨hdle, hdlt⟩ := log2_bounds x.den_ne_zero
  have hden : (0 : ℚ) < x.den := by exact_mod_cast x.den_pos
  have hxeq : x = (x.num.natAbs : ℚ) / x.den := by
    conv_lhs => rw [← Rat.num_div_den x]
    rw [← Int.cast_natCast x.num.natAbs, Int.natAbs_of_nonneg hnum.le]
  generalize Nat.log2 x.num.natAbs = a at hnle hnlt ⊢
  generalize Nat.log2 x.den = b at hdle hdlt ⊢
  rw [hxeq]
  constructor
  · rw [lt_div_iff₀ hden]
    calc (2 : ℚ) ^ ((a - b : ℤ) - 1) * x.den
        < (2 : ℚ) ^ ((a - b : ℤ) - 1) * (2 : ℚ) ^ (b + 1 : ℤ) := by gcongr
      _ = (2 : ℚ) ^ (a : ℤ) := by
          rw [← zpow_add₀ two_ne_zero]
          congr 1
          ring
      _ ≤ x.num.natAbs := hnle
  · rw [div_lt_iff₀ hden]
    calc (x.num.natAbs : ℚ) < (2 : ℚ) ^ (a + 1 : ℤ) := hnlt
      _ = (2 : ℚ) ^ ((a - b : ℤ) + 1) * (2 : ℚ) ^ (b : ℤ) := by
          rw [← zpow_add₀ two_ne_zero]
          congr 1
          ring
      _ ≤ (2 : ℚ) ^ ((a - b : ℤ) + 1) * x.den := by gcongr

/-- The exponent of the unit of the numbers from `2 ^ l` to `2 ^ (l + 1)`. -/
def unitExponent (l : ℤ) : ℤ := max (l - 52) (-1074)

theorem exists_round (hx : 0 < x) : ∃ l : ℤ, (2 : ℚ) ^ l ≤ x ∧ x < (2 : ℚ) ^ (l + 1) ∧
    round x = roundEven (x / (2 : ℚ) ^ unitExponent l) * (2 : ℚ) ^ unitExponent l := by
  obtain ⟨hlow, hhigh⟩ := guess_bounds hx
  unfold round
  rw [if_neg hx.ne', abs_of_pos hx]
  simp only [pow2_eq]
  generalize (Nat.log2 x.num.natAbs - Nat.log2 x.den : ℤ) = guess at hlow hhigh ⊢
  by_cases h : (2 : ℚ) ^ guess ≤ x
  · refine ⟨guess, h, hhigh, ?_⟩
    rw [if_pos h]
    rfl
  · refine ⟨guess - 1, hlow.le, ?_, ?_⟩
    · rw [sub_add_cancel]
      exact lt_of_not_ge h
    · rw [if_neg h]
      rfl

/-! ## Monotonicity -/

theorem two_zpow_pos (n : ℤ) : (0 : ℚ) < (2 : ℚ) ^ n := by positivity

/-- A power of two that is not below the unit is a multiple of it. -/
theorem roundEven_two_zpow {u e : ℤ} (h : u ≤ e) :
    (roundEven ((2 : ℚ) ^ e / (2 : ℚ) ^ u) : ℚ) * (2 : ℚ) ^ u = (2 : ℚ) ^ e := by
  obtain ⟨n, rfl⟩ := Int.exists_add_of_le h
  have hint : (2 : ℚ) ^ (u + n : ℤ) / (2 : ℚ) ^ u = ((2 ^ n : ℤ) : ℚ) := by
    rw [zpow_add₀ two_ne_zero, zpow_natCast, mul_div_cancel_left₀ _ (two_zpow_pos u).ne']
    push_cast
    rfl
  rw [hint, roundEven_intCast, ← hint, div_mul_cancel₀ _ (two_zpow_pos u).ne']

theorem round_mono (hx : 0 < x) (h : x ≤ y) : round x ≤ round y := by
  obtain ⟨l, hlx, hxl, hrx⟩ := exists_round hx
  obtain ⟨m, hmy, hym, hry⟩ := exists_round (hx.trans_le h)
  have hlm : l ≤ m := by
    have : (2 : ℚ) ^ l < (2 : ℚ) ^ (m + 1) := hlx.trans_lt (h.trans_lt hym)
    have := (zpow_lt_zpow_iff_right₀ (by norm_num : (1 : ℚ) < 2)).mp this
    omega
  rw [hrx, hry]
  by_cases hu : unitExponent l = unitExponent m
  · rw [hu]
    have hu' := two_zpow_pos (unitExponent m)
    have := roundEven_mono (div_le_div_of_nonneg_right h hu'.le)
    gcongr
  · -- a power of two lies between the two
    have hpos := two_zpow_pos (unitExponent l)
    have hpos' := two_zpow_pos (unitExponent m)
    have hxm : x ≤ (2 : ℚ) ^ m := by
      refine hxl.le.trans (zpow_le_zpow_right₀ (by norm_num) ?_)
      unfold unitExponent at hu
      omega
    have hle : unitExponent l ≤ m ∧ unitExponent m ≤ m := by
      unfold unitExponent at hu ⊢
      omega
    calc (roundEven (x / (2 : ℚ) ^ unitExponent l) : ℚ) * (2 : ℚ) ^ unitExponent l
        ≤ roundEven ((2 : ℚ) ^ m / (2 : ℚ) ^ unitExponent l) * (2 : ℚ) ^ unitExponent l := by
          have := roundEven_mono (div_le_div_of_nonneg_right hxm hpos.le)
          gcongr
      _ = (2 : ℚ) ^ m := roundEven_two_zpow hle.1
      _ = roundEven ((2 : ℚ) ^ m / (2 : ℚ) ^ unitExponent m) * (2 : ℚ) ^ unitExponent m :=
          (roundEven_two_zpow hle.2).symm
      _ ≤ roundEven (y / (2 : ℚ) ^ unitExponent m) * (2 : ℚ) ^ unitExponent m := by
          have := roundEven_mono (div_le_div_of_nonneg_right hmy hpos'.le)
          gcongr

theorem round_zero : round 0 = 0 := if_pos rfl

theorem round_nonneg (hx : 0 ≤ x) : 0 ≤ round x := by
  rcases hx.eq_or_lt with rfl | hx
  · exact round_zero.ge
  · obtain ⟨l, -, -, hr⟩ := exists_round hx
    rw [hr]
    have hfloor : 0 ≤ ⌊x / (2 : ℚ) ^ unitExponent l⌋ := Int.floor_nonneg.mpr (by positivity)
    have hle : 0 ≤ roundEven (x / (2 : ℚ) ^ unitExponent l) :=
      hfloor.trans (floor_le_roundEven _)
    have hcast : (0 : ℚ) ≤ roundEven (x / (2 : ℚ) ^ unitExponent l) := by exact_mod_cast hle
    positivity

theorem round_le_round (hx : 0 ≤ x) (h : x ≤ y) : round x ≤ round y := by
  rcases hx.eq_or_lt with rfl | hx
  · rw [round_zero]
    exact round_nonneg h
  · exact round_mono hx h

/-! ## The relative error -/

theorem abs_round_sub_le (h : (2 : ℚ) ^ (-1022 : ℤ) ≤ x) : |round x - x| ≤ x / 2 ^ 53 := by
  have hx : 0 < x := (two_zpow_pos _).trans_le h
  obtain ⟨l, hlx, hxl, hr⟩ := exists_round hx
  have hl : -1022 ≤ l := by
    have := (zpow_lt_zpow_iff_right₀ (by norm_num : (1 : ℚ) < 2)).mp (h.trans_lt hxl)
    omega
  have hunit : unitExponent l = l - 52 := max_eq_left (by omega)
  rw [hunit] at hr
  have hpos := two_zpow_pos (l - 52)
  have herror := abs_roundEven_sub_le (x / (2 : ℚ) ^ (l - 52))
  have hscaled : round x - x =
      (roundEven (x / (2 : ℚ) ^ (l - 52)) - x / (2 : ℚ) ^ (l - 52)) * (2 : ℚ) ^ (l - 52) := by
    rw [hr, sub_mul, div_mul_cancel₀ _ hpos.ne']
  have hsplit : (2 : ℚ) ^ (l - 52) = (2 : ℚ) ^ l / 2 ^ 52 := by
    rw [zpow_sub₀ two_ne_zero]
    rfl
  rw [hscaled, abs_mul, abs_of_pos hpos]
  calc |(roundEven (x / (2 : ℚ) ^ (l - 52)) : ℚ) - x / (2 : ℚ) ^ (l - 52)| * (2 : ℚ) ^ (l - 52)
      ≤ 1 / 2 * (2 : ℚ) ^ (l - 52) := by gcongr
    _ ≤ x / 2 ^ 53 := by
        rw [hsplit]
        linarith

theorem round_bounds (h : (2 : ℚ) ^ (-1022 : ℤ) ≤ x) :
    x * (1 - 1 / 2 ^ 53) ≤ round x ∧ round x ≤ x * (1 + 1 / 2 ^ 53) := by
  obtain ⟨hlow, hhigh⟩ := abs_le.mp (abs_round_sub_le h)
  constructor
  · linarith
  · linarith

/-! ## Integers -/

/-- An integer that is even, and at most a half more. -/
theorem roundEven_add {n : ℤ} (h : n % 2 = 0) {f : ℚ} (hf : 0 ≤ f) (hf' : f ≤ 1 / 2) :
    roundEven (n + f) = n := by
  have hfloor : ⌊(n + f : ℚ)⌋ = n := by
    rw [Int.floor_intCast_add, Int.floor_eq_zero_iff.mpr ⟨hf, by linarith⟩, add_zero]
  unfold roundEven
  rw [hfloor, add_sub_cancel_left]
  dsimp only
  rw [if_neg (by linarith : ¬(1 : ℚ) / 2 < f), if_pos h]
  exact ite_self n

/-- An integer below `2 ^ 53` in units of its exponent. -/
theorem natCast_div_unit {n : ℕ} {l : ℤ} {e : ℕ} (hl : l = 52 - e) :
    (n : ℚ) / (2 : ℚ) ^ (l - 52) = ((n * 2 ^ e : ℕ) : ℚ) := by
  subst hl
  have hexp : (52 - e : ℤ) - 52 = -(e : ℤ) := by ring
  rw [hexp, zpow_neg, zpow_natCast, div_inv_eq_mul]
  push_cast
  rfl

theorem unitExponent_eq {l : ℤ} (h : -1022 ≤ l) : unitExponent l = l - 52 :=
  max_eq_left (by omega)

theorem exponent_lt {x : ℚ} {l : ℤ} {k : ℕ} (hl : (2 : ℚ) ^ l ≤ x) (hx : x < 2 ^ k) :
    l < k := by
  have h : (2 : ℚ) ^ l < (2 : ℚ) ^ (k : ℤ) := by
    rw [zpow_natCast]
    exact hl.trans_lt hx
  exact (zpow_lt_zpow_iff_right₀ (by norm_num : (1 : ℚ) < 2)).mp h

theorem exponent_nonneg {x : ℚ} {l : ℤ} (hl : x < (2 : ℚ) ^ (l + 1)) (hx : 1 ≤ x) : 0 ≤ l := by
  have h : (2 : ℚ) ^ (0 : ℤ) < (2 : ℚ) ^ (l + 1) := by
    rw [zpow_zero]
    exact hx.trans_lt hl
  have := (zpow_lt_zpow_iff_right₀ (by norm_num : (1 : ℚ) < 2)).mp h
  omega

theorem round_natCast {n : ℕ} (h : n < 2 ^ 53) : round n = n := by
  rcases Nat.eq_zero_or_pos n with rfl | hn
  · exact_mod_cast round_zero
  have hpos : (1 : ℚ) ≤ n := by exact_mod_cast hn
  obtain ⟨l, hlow, hhigh, hr⟩ := exists_round (zero_lt_one.trans_le hpos)
  have hl : l < 53 := exponent_lt hlow (by exact_mod_cast h)
  have hl0 : 0 ≤ l := exponent_nonneg hhigh hpos
  obtain ⟨e, he⟩ : ∃ e : ℕ, l = 52 - e := ⟨(52 - l).toNat, by omega⟩
  rw [unitExponent_eq (by omega)] at hr
  have hunit : (n : ℚ) / (2 : ℚ) ^ (l - 52) = ((n * 2 ^ e : ℕ) : ℤ) := by
    rw [natCast_div_unit he]
    rfl
  rw [hr, hunit, roundEven_intCast, ← hunit, div_mul_cancel₀ _ (two_zpow_pos _).ne']

theorem round_le_natCast {n : ℕ} (h : n < 2 ^ 53) (hx : 0 ≤ x) (hle : x ≤ n) : round x ≤ n := by
  rw [← round_natCast h]
  exact round_le_round hx hle

/-- An integer that is far below `2 ^ 53`, and at most half a unit of a smaller number more,
    is rounded down to itself. -/
theorem round_add_half {n : ℕ} (hn : 0 < n) (h : n < 2 ^ 51) {l : ℤ} (hl0 : -1022 ≤ l)
    (hl : (2 : ℚ) ^ l ≤ n) : round (n + (2 : ℚ) ^ (l - 52) / 2) = n := by
  have hpos : (1 : ℚ) ≤ n := by exact_mod_cast hn
  have hunit := two_zpow_pos (l - 52)
  have hl51 : l < 51 := exponent_lt hl (by exact_mod_cast h)
  have hunit1 : (2 : ℚ) ^ (l - 52) ≤ 1 := by
    calc (2 : ℚ) ^ (l - 52) ≤ (2 : ℚ) ^ (0 : ℤ) :=
          zpow_le_zpow_right₀ (by norm_num) (by omega)
      _ = 1 := zpow_zero 2
  obtain ⟨l', hlow, hhigh, hr⟩ := exists_round (x := n + (2 : ℚ) ^ (l - 52) / 2) (by linarith)
  have hl' : l' < 52 := by
    refine exponent_lt hlow ?_
    have hn' : (n : ℚ) + 1 ≤ 2 ^ 51 := by exact_mod_cast h
    norm_num at hn' ⊢
    linarith
  have hll' : l ≤ l' := by
    have hlt : (2 : ℚ) ^ l < (2 : ℚ) ^ (l' + 1) := by linarith
    have := (zpow_lt_zpow_iff_right₀ (by norm_num : (1 : ℚ) < 2)).mp hlt
    omega
  have hl'0 : 0 ≤ l' := exponent_nonneg hhigh (by linarith)
  obtain ⟨e, he⟩ : ∃ e : ℕ, l' = 52 - (e + 1 : ℕ) := ⟨(51 - l').toNat, by omega⟩
  rw [unitExponent_eq (by omega)] at hr
  have hunit' := two_zpow_pos (l' - 52)
  have hinteger : (n : ℚ) / (2 : ℚ) ^ (l' - 52) = ((n * 2 ^ (e + 1) : ℕ) : ℤ) := by
    rw [natCast_div_unit he]
    rfl
  have heven : ((n * 2 ^ (e + 1) : ℕ) : ℤ) % 2 = 0 := by
    rw [pow_succ, ← Nat.mul_assoc]
    omega
  have hsplit : ((n : ℚ) + (2 : ℚ) ^ (l - 52) / 2) / (2 : ℚ) ^ (l' - 52) =
      ((n * 2 ^ (e + 1) : ℕ) : ℤ) + (2 : ℚ) ^ (l - 52) / 2 / (2 : ℚ) ^ (l' - 52) := by
    rw [add_div, hinteger]
  have hhalf : (2 : ℚ) ^ (l - 52) / 2 / (2 : ℚ) ^ (l' - 52) ≤ 1 / 2 := by
    rw [div_le_iff₀ hunit']
    have : (2 : ℚ) ^ (l - 52) ≤ (2 : ℚ) ^ (l' - 52) :=
      zpow_le_zpow_right₀ (by norm_num) (by omega)
    linarith
  rw [hr, hsplit, roundEven_add heven (by positivity) hhalf, ← hinteger,
    div_mul_cancel₀ _ hunit'.ne']

/-- Two thirds of an integer, rounded, and one and a half of that, rounded: the errors do not
    lead above the integer. -/
theorem round_thirds_le {n : ℕ} (hn : 0 < n) (h : n < 2 ^ 51) :
    round (round (2 * n / 3) * (3 / 2)) ≤ n := by
  have hpos : (1 : ℚ) ≤ n := by exact_mod_cast hn
  have hthirds : (0 : ℚ) < 2 * n / 3 := by linarith
  obtain ⟨l, hlow, hhigh, hr⟩ := exists_round hthirds
  have hl51 : l < 51 := by
    refine exponent_lt hlow ?_
    calc (2 : ℚ) * n / 3 ≤ n := by linarith
      _ < 2 ^ 51 := by exact_mod_cast h
  have hl : -1 ≤ l := by
    have hlt : (2 : ℚ) ^ (-1 : ℤ) < (2 : ℚ) ^ (l + 1) := by
      norm_num
      linarith
    have := (zpow_lt_zpow_iff_right₀ (by norm_num : (1 : ℚ) < 2)).mp hlt
    omega
  obtain ⟨e, he⟩ : ∃ e : ℕ, l = 52 - e := ⟨(52 - l).toNat, by omega⟩
  rw [unitExponent_eq (by omega)] at hr
  have hunit := two_zpow_pos (l - 52)
  -- three times the rounded number is at most one unit above twice the integer
  have hinteger : (n : ℚ) / (2 : ℚ) ^ (l - 52) = ((n * 2 ^ e : ℕ) : ℤ) := by
    rw [natCast_div_unit he]
    rfl
  have hj : 3 * roundEven (2 * n / 3 / (2 : ℚ) ^ (l - 52)) ≤ 2 * ((n * 2 ^ e : ℕ) : ℤ) + 1 := by
    have herror := (abs_le.mp (abs_roundEven_sub_le (2 * n / 3 / (2 : ℚ) ^ (l - 52)))).2
    have hsame : (2 : ℚ) * n / 3 / (2 : ℚ) ^ (l - 52) = 2 / 3 * ((n * 2 ^ e : ℕ) : ℤ) := by
      rw [← hinteger]
      ring
    rw [hsame] at herror ⊢
    have hlt : (3 : ℚ) * roundEven (2 / 3 * ((n * 2 ^ e : ℕ) : ℤ)) <
        2 * ((n * 2 ^ e : ℕ) : ℤ) + 2 := by linarith
    have : 3 * roundEven (2 / 3 * ((n * 2 ^ e : ℕ) : ℤ)) < 2 * ((n * 2 ^ e : ℕ) : ℤ) + 2 := by
      exact_mod_cast hlt
    omega
  have hle : round (2 * n / 3) * (3 / 2) ≤ n + (2 : ℚ) ^ (l - 52) / 2 := by
    have hj' : (3 : ℚ) * roundEven (2 * n / 3 / (2 : ℚ) ^ (l - 52)) ≤
        2 * (n / (2 : ℚ) ^ (l - 52)) + 1 := by
      rw [hinteger]
      exact_mod_cast hj
    rw [hr]
    calc (roundEven (2 * n / 3 / (2 : ℚ) ^ (l - 52)) : ℚ) * (2 : ℚ) ^ (l - 52) * (3 / 2)
        = 3 * roundEven (2 * n / 3 / (2 : ℚ) ^ (l - 52)) * ((2 : ℚ) ^ (l - 52) / 2) := by ring
      _ ≤ (2 * (n / (2 : ℚ) ^ (l - 52)) + 1) * ((2 : ℚ) ^ (l - 52) / 2) := by gcongr
      _ = n + (2 : ℚ) ^ (l - 52) / 2 := by
          field_simp
  have hround : 0 ≤ round (2 * n / 3) := round_nonneg hthirds.le
  calc round (round (2 * n / 3) * (3 / 2)) ≤ round (n + (2 : ℚ) ^ (l - 52) / 2) :=
        round_le_round (by linarith) hle
    _ = n := round_add_half hn h (by omega) (hlow.trans (by linarith))

end Double
