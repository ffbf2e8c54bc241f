/-
  The debit and the credit of a payment (`worker/src/workload.rs`), as integers.

  The debit subtracts with wrap-around and then looks at the sign, the credit saturates.
  `sub_lt_zero_iff` gives the differences at which the debit fails, `toInt_saturatingAdd` the
  balance after the credit, and `pay_conserves_iff` the payments at which nothing is lost.
-/
import DagBft.Worker.Workload

namespace DagBft.Worker

/-- An integer that is the value of an `i64`. -/
def FitsI64 (x : ℤ) : Prop := -2 ^ 63 ≤ x ∧ x < 2 ^ 63

instance (x : ℤ) : Decidable (FitsI64 x) := inferInstanceAs (Decidable (_ ∧ _))

theorem fitsI64_toInt (a : Int64) : FitsI64 a.toInt := ⟨Int64.le_toInt a, Int64.toInt_lt a⟩

theorem toInt_sub_eq_bmod (a b : Int64) : (a - b).toInt = (a.toInt - b.toInt).bmod (2 ^ 64) :=
  Int64.toInt_sub a b

theorem lt_zero_iff (a : Int64) : a < 0 ↔ a.toInt < 0 := by
  rw [Int64.lt_iff_toInt_lt]
  rfl

/-- A difference that is too large comes out negative, and one that is too small does not. -/
theorem sub_lt_zero_iff (a b : Int64) : a - b < 0 ↔
    (-2 ^ 63 ≤ a.toInt - b.toInt ∧ a.toInt - b.toInt < 0) ∨ 2 ^ 63 ≤ a.toInt - b.toInt := by
  obtain ⟨ha, ha'⟩ := fitsI64_toInt a
  obtain ⟨hb, hb'⟩ := fitsI64_toInt b
  rw [lt_zero_iff, toInt_sub_eq_bmod, Int.bmod_def]
  split <;> omega

theorem toInt_ofIntClamp (x : ℤ) :
    (Int64.ofIntClamp x).toInt = max (-2 ^ 63) (min (2 ^ 63 - 1) x) := by
  by_cases h : FitsI64 x
  · obtain ⟨hlo, hhi⟩ := h
    rw [Int64.toInt_ofIntClamp hlo (Int.le_sub_one_of_lt hhi)]
    omega
  · have hmin : Int64.minValue.toInt = -2 ^ 63 := rfl
    have hmax : Int64.maxValue.toInt = 2 ^ 63 - 1 := rfl
    unfold FitsI64 at h
    unfold Int64.ofIntClamp
    split
    · rw [dif_neg (by omega), hmax]
      omega
    · rw [hmin]
      omega

theorem toInt_saturatingAdd (a b : Int64) :
    (saturatingAdd a b).toInt = max (-2 ^ 63) (min (2 ^ 63 - 1) (a.toInt + b.toInt)) :=
  toInt_ofIntClamp _

/-! ## A payment between two accounts -/

/-- The debit of the source, and the credit of the destination if the debit succeeds. -/
def pay (src dest : AccountState) (amount : Double) : AccountState × AccountState × Bool :=
  if (src.executeSendPaymentDebit amount).2 then
    ((src.executeSendPaymentDebit amount).1, dest.executeSendPaymentCredit amount, true)
  else (src, dest, false)

variable {src dest : AccountState} {amount : Double}

theorem debit_of_lt (h : src.checkingBalance - amount.toInt64 < 0) :
    src.executeSendPaymentDebit amount = (src, false) := by
  unfold AccountState.executeSendPaymentDebit
  rw [if_pos h]

theorem debit_of_not_lt (h : ¬src.checkingBalance - amount.toInt64 < 0) :
    src.executeSendPaymentDebit amount =
      ({ src with checkingBalance := src.checkingBalance - amount.toInt64 }, true) := by
  unfold AccountState.executeSendPaymentDebit
  rw [if_neg h]

theorem pay_of_lt (h : src.checkingBalance - amount.toInt64 < 0) :
    pay src dest amount = (src, dest, false) := by
  unfold pay
  rw [debit_of_lt h]
  rfl

theorem pay_of_not_lt (h : ¬src.checkingBalance - amount.toInt64 < 0) :
    pay src dest amount =
      ({ src with checkingBalance := src.checkingBalance - amount.toInt64 },
        { dest with checkingBalance := saturatingAdd dest.checkingBalance amount.toInt64 },
        true) := by
  unfold pay
  rw [debit_of_not_lt h]
  rfl

/-- A payment conserves money: it fails and changes nothing, or it takes a number from the
    one checking balance and adds it to the other. -/
def Conserves (src dest : AccountState) (r : AccountState × AccountState × Bool) : Prop :=
  r = (src, dest, false) ∨
  r.2.2 = true ∧ r.1.savingsBalance = src.savingsBalance ∧
    r.2.1.savingsBalance = dest.savingsBalance ∧
    ∃ paid : ℕ, r.1.checkingBalance.toInt = src.checkingBalance.toInt - paid ∧
      r.2.1.checkingBalance.toInt = dest.checkingBalance.toInt + paid

/-- The balances and amounts at which a payment conserves money: the debit is refused, by a
    difference that is negative or too large for an `i64`; or the amount is neither negative
    nor above the balance, and the credit does not saturate. -/
def PaymentFits (src dest amount : ℤ) : Prop :=
  (-2 ^ 63 ≤ src - amount ∧ src - amount < 0) ∨ 2 ^ 63 ≤ src - amount ∨
    (0 ≤ amount ∧ amount ≤ src ∧ dest + amount < 2 ^ 63)

theorem pay_conserves_iff (src dest : AccountState) (amount : Double) :
    Conserves src dest (pay src dest amount) ↔
      PaymentFits src.checkingBalance.toInt dest.checkingBalance.toInt amount.toInt64.toInt := by
  have hsub := sub_lt_zero_iff src.checkingBalance amount.toInt64
  have hadd := toInt_saturatingAdd dest.checkingBalance amount.toInt64
  obtain ⟨hs, hs'⟩ := fitsI64_toInt src.checkingBalance
  obtain ⟨hd, hd'⟩ := fitsI64_toInt dest.checkingBalance
  obtain ⟨ha, ha'⟩ := fitsI64_toInt amount.toInt64
  by_cases hlt : src.checkingBalance - amount.toInt64 < 0
  · rw [pay_of_lt hlt]
    refine ⟨fun _ => ?_, fun _ => Or.inl rfl⟩
    exact (hsub.mp hlt).imp_right Or.inl
  · rw [pay_of_not_lt hlt]
    have hnot := fun h => hlt (hsub.mpr h)
    have hdiff := toInt_sub_eq_bmod src.checkingBalance amount.toInt64
    rw [Int.bmod_def] at hdiff
    constructor
    · rintro (h | ⟨-, -, -, paid, hpaid, hpaid'⟩)
      · exact absurd (congrArg (fun r => r.2.2) h) Bool.true_eq_false.mp
      · replace hpaid : (src.checkingBalance - amount.toInt64).toInt = _ := hpaid
        replace hpaid' : (saturatingAdd dest.checkingBalance amount.toInt64).toInt = _ := hpaid'
        unfold PaymentFits
        split at hdiff <;> omega
    · rintro (h | h | ⟨hpos, hle, hfits⟩)
      · exact absurd (Or.inl h) hnot
      · exact absurd (Or.inr h) hnot
      · refine Or.inr ⟨rfl, rfl, rfl, amount.toInt64.toInt.toNat, ?_, ?_⟩
        · show (src.checkingBalance - amount.toInt64).toInt = _
          split at hdiff <;> omega
        · show (saturatingAdd dest.checkingBalance amount.toInt64).toInt = _
          omega

end DagBft.Worker
