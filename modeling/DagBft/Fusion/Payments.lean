/-
  When payments conserve money (`SendPayment` in `execute_single_local_transaction`).

  A payment that meets `PaymentFits` in the state it is executed in changes nothing or moves
  a number from one checking balance to the other (`executeSmallBank_pay`), so a list of
  such payments leaves the sum over all accounts as it is.
-/
import Mathlib.Algebra.BigOperators.Group.Finset.Basic
import DagBft.Lib.Runs
import DagBft.Worker.Payments
import DagBft.Fusion.Executor

namespace DagBft.Fusion

open Worker

variable {store store' : AccountStore} {tx : SmallBankTransaction} {src dest : AccountState}

/-! ## One payment -/

/-- The store after a payment between two accounts. -/
def stored (store : AccountStore) (tx : SmallBankTransaction)
    (r : AccountState × AccountState × Bool) : AccountStore :=
  Function.update (Function.update store tx.accountId (some r.1)) tx.destAccountId (some r.2.1)

/-- A payment in the store is a payment between the states of its two accounts. -/
theorem executeSmallBank_pay (htype : tx.txType = .sendPayment)
    (hne : tx.accountId ≠ tx.destAccountId) (hsrc : store tx.accountId = some src)
    (hdest : store tx.destAccountId = some dest) :
    Executor.executeSmallBank store tx =
      .ok (stored store tx (pay src dest tx.amount), (pay src dest tx.amount).2.2) := by
  unfold Executor.executeSmallBank AccountStore.update
  simp only [htype, hsrc, hdest, Option.isSome_some, and_self, if_true, Option.map_some, bind,
    Except.bind]
  by_cases hlt : src.checkingBalance - tx.amount.toInt64 < 0
  · rw [debit_of_lt hlt, pay_of_lt hlt]
    unfold stored
    rw [Function.update_eq_self_iff.mpr hsrc.symm, Function.update_eq_self_iff.mpr hdest.symm]
    rfl
  · rw [debit_of_not_lt hlt, pay_of_not_lt hlt]
    simp only [Function.update_of_ne hne.symm, hdest, Option.map_some, if_true]
    rfl

/-! ## The sum over all accounts -/

/-- What an account holds. -/
def worth : Option AccountState → ℤ
  | none => 0
  | some s => s.checkingBalance.toInt + s.savingsBalance.toInt

/-- What some accounts hold together. -/
def total (accounts : Finset ℕ) (store : AccountStore) : ℤ := ∑ a ∈ accounts, worth (store a)

variable {accounts : Finset ℕ}

theorem total_update {account : ℕ} (h : account ∈ accounts) (state : Option AccountState) :
    total accounts (Function.update store account state) =
      total accounts store - worth (store account) + worth state := by
  unfold total
  have hcongr : ∀ a ∈ accounts.erase account,
      worth (Function.update store account state a) = worth (store a) := by
    intro a ha
    rw [Function.update_of_ne (Finset.ne_of_mem_erase ha)]
  rw [← Finset.add_sum_erase _ _ h, ← Finset.add_sum_erase accounts (fun a => worth (store a)) h,
    Finset.sum_congr rfl hcongr, Function.update_self]
  ring

theorem worth_of_conserves {r : AccountState × AccountState × Bool} (h : Conserves src dest r) :
    worth (some r.1) + worth (some r.2.1) = worth (some src) + worth (some dest) := by
  unfold worth
  rcases h with rfl | ⟨-, hsavings, hsavings', paid, hpaid, hpaid'⟩
  · rfl
  · simp only [hsavings, hsavings', hpaid, hpaid']
    ring

theorem total_stored {r : AccountState × AccountState × Bool}
    (hne : tx.accountId ≠ tx.destAccountId) (hsrc : store tx.accountId = some src)
    (hdest : store tx.destAccountId = some dest) (hmem : tx.accountId ∈ accounts)
    (hmem' : tx.destAccountId ∈ accounts) (h : Conserves src dest r) :
    total accounts (stored store tx r) = total accounts store := by
  have hworth := worth_of_conserves h
  unfold stored
  rw [total_update hmem', total_update hmem, Function.update_of_ne hne.symm, hsrc, hdest]
  omega

/-! ## Payments in the executor -/

/-- The bytes are a payment between two accounts. -/
def IsPayment (txBytes : Bytes) (tx : SmallBankTransaction) : Prop :=
  parseSmallbankPayload txBytes = some tx ∧ tx.txType = .sendPayment ∧
    tx.accountId ≠ tx.destAccountId

/-- A transaction that is given to `execute_single_local_transaction`. -/
structure Submitted where
  digest : Bytes
  txBytes : Bytes
  header : TransactionHeader

variable {cfg : Settings} {s s' : Executor} {t : Submitted}

/-- The execution of a transaction, if there is no panic. -/
def submit (cfg : Settings) (s : Executor) (t : Submitted) : Option Executor :=
  (s.executeSingleLocalTransaction cfg t.digest t.txBytes t.header).toOption

/-- A payment that fits the balances of its accounts. -/
def Fitting (s : Executor) (t : Submitted) : Prop :=
  ∃ tx src dest, IsPayment t.txBytes tx ∧ s.accountStore tx.accountId = some src ∧
    s.accountStore tx.destAccountId = some dest ∧
    PaymentFits src.checkingBalance.toInt dest.checkingBalance.toInt tx.amount.toInt64.toInt

theorem executeSingleLocalTransaction_pay (cfg : Settings) (h : IsPayment t.txBytes tx)
    (hsrc : s.accountStore tx.accountId = some src)
    (hdest : s.accountStore tx.destAccountId = some dest) :
    ∃ s', s.executeSingleLocalTransaction cfg t.digest t.txBytes t.header = .ok s' ∧
      s'.accountStore = stored s.accountStore tx (pay src dest tx.amount) := by
  obtain ⟨hparse, htype, hne⟩ := h
  unfold Executor.executeSingleLocalTransaction
  simp only [hparse, executeSmallBank_pay htype hne hsrc hdest, bind, Except.bind]
  split
  · split
    · exact ⟨_, rfl, rfl⟩
    · exact ⟨_, rfl, rfl⟩
  · exact ⟨_, rfl, rfl⟩

/-- All accounts of the executor are among these, and hold this sum. -/
structure Balanced (accounts : Finset ℕ) (sum : ℤ) (s : Executor) : Prop where
  all : ∀ a, (s.accountStore a).isSome → a ∈ accounts
  sum : total accounts s.accountStore = sum

/-- A fitting payment keeps the accounts and their sum. -/
theorem Balanced.submit {sum : ℤ} (hb : Balanced accounts sum s) (hfit : Fitting s t)
    (h : submit cfg s t = some s') : Balanced accounts sum s' := by
  obtain ⟨tx, src, dest, hpayment, hsrc, hdest, hfits⟩ := hfit
  obtain ⟨s₁, hs₁, hstore⟩ := executeSingleLocalTransaction_pay cfg hpayment hsrc hdest
  have hmem : tx.accountId ∈ accounts := hb.all _ (by rw [hsrc]; rfl)
  have hmem' : tx.destAccountId ∈ accounts := hb.all _ (by rw [hdest]; rfl)
  unfold Fusion.submit at h
  rw [hs₁] at h
  obtain rfl : s₁ = s' := Option.some.inj h
  refine ⟨fun a ha => ?_, ?_⟩
  · by_contra hnot
    have hsrc' : a ≠ tx.accountId := fun he => hnot (he ▸ hmem)
    have hdest' : a ≠ tx.destAccountId := fun he => hnot (he ▸ hmem')
    rw [hstore] at ha
    unfold stored at ha
    rw [Function.update_of_ne hdest', Function.update_of_ne hsrc'] at ha
    exact hnot (hb.all a ha)
  · rw [hstore, ← hb.sum]
    exact total_stored hpayment.2.2 hsrc hdest hmem hmem' ((pay_conserves_iff _ _ _).mpr hfits)

/-- A payment conserves money exactly if it fits, and fitting payments one after the other
    keep the sum over all accounts. -/
theorem payments_conserve (cfg : Settings) :
    (∀ (s : Executor) (t : Submitted) (tx : SmallBankTransaction) (src dest : AccountState),
      IsPayment t.txBytes tx → s.accountStore tx.accountId = some src →
      s.accountStore tx.destAccountId = some dest →
      ∃ s' src' dest' success,
        s.executeSingleLocalTransaction cfg t.digest t.txBytes t.header = .ok s' ∧
        Executor.executeSmallBank s.accountStore tx = .ok (s'.accountStore, success) ∧
        s'.accountStore = Function.update
          (Function.update s.accountStore tx.accountId (some src')) tx.destAccountId (some dest') ∧
        (Conserves src dest (src', dest', success) ↔ PaymentFits src.checkingBalance.toInt
          dest.checkingBalance.toInt tx.amount.toInt64.toInt)) ∧
    ∀ (accounts : Finset ℕ) (s s' : Executor) (payments : List Submitted),
      (∀ a, (s.accountStore a).isSome → a ∈ accounts) →
      exec (submit cfg) s payments = some s' → Allowed (submit cfg) Fitting s payments →
      total accounts s'.accountStore = total accounts s.accountStore := by
  constructor
  · intro s t tx src dest hpayment hsrc hdest
    obtain ⟨s', hs', hstore⟩ := executeSingleLocalTransaction_pay cfg hpayment hsrc hdest
    refine ⟨s', _, _, _, hs', ?_, hstore, pay_conserves_iff src dest tx.amount⟩
    rw [hstore]
    exact executeSmallBank_pay hpayment.2.1 hpayment.2.2 hsrc hdest
  · intro accounts s s' payments hall hexec hallowed
    have hinv : Balanced accounts (total accounts s.accountStore) s' :=
      (reaches_of_exec hexec hallowed).invariant
        (fun _ _ _ hb hfit hstep => hb.submit hfit hstep) ⟨hall, rfl⟩
    exact hinv.sum

/-! ## A payment the wrong way round -/

namespace PaymentSample

def settings : Settings := ⟨1, false, fun _ => none⟩

/-- Accounts 1 and 2 with a checking balance of 7 each. -/
def executor : Executor :=
  { executorId := 0
    accountStore := fun a => if a = 1 ∨ a = 2 then some ⟨7, 0⟩ else none
    statesSchedulePartition := fun _ => none
    pendingQueues := fun _ => none
    incomingTransfers := ∅
    drainedIncomingTransfers := ∅
    txSendState := []
    txClientReply := []
    executed := [] }

/-- A payment from account 1 to account 2, with the bits of its amount. -/
def payment (amount : Bytes) : Submitted where
  digest := []
  txBytes := [1, 0, 0, 0, 0, 0, 0, 0, 0, 0] ++ [0, 0, 0, 0, 0, 0, 0, 1] ++
    [0, 0, 0, 0, 0, 0, 0, 2] ++ [4] ++ amount
  header := ⟨1, ⟨0, 0⟩⟩

/-- 5.0 and -5.0. -/
def five : Bytes := [0x40, 0x14, 0, 0, 0, 0, 0, 0]

def minusFive : Bytes := [0xC0, 0x14, 0, 0, 0, 0, 0, 0]

theorem parse_payment : parseSmallbankPayload (payment five).txBytes =
    some ⟨.sendPayment, 1, 2, .finite 5⟩ := by decide +kernel

theorem parse_payment_minus : parseSmallbankPayload (payment minusFive).txBytes =
    some ⟨.sendPayment, 1, 2, .finite (-5)⟩ := by decide +kernel

end PaymentSample

open PaymentSample

theorem isPayment_five :
    IsPayment (payment five).txBytes ⟨.sendPayment, 1, 2, .finite 5⟩ :=
  ⟨parse_payment, rfl, by decide⟩

theorem fitting_five : Fitting executor (payment five) := by
  refine ⟨_, ⟨7, 0⟩, ⟨7, 0⟩, isPayment_five, rfl, rfl, Or.inr (Or.inr ?_)⟩
  decide +kernel

theorem payments_conserve_sample :
    (∃ s' src' dest' success,
      executor.executeSingleLocalTransaction settings [] (payment five).txBytes
        (payment five).header = .ok s' ∧
      Executor.executeSmallBank executor.accountStore ⟨.sendPayment, 1, 2, .finite 5⟩ =
        .ok (s'.accountStore, success) ∧
      s'.accountStore = Function.update (Function.update executor.accountStore 1 (some src'))
        2 (some dest') ∧
      (Conserves ⟨7, 0⟩ ⟨7, 0⟩ (src', dest', success) ↔
        PaymentFits (7 : Int64).toInt (7 : Int64).toInt (Double.finite 5).toInt64.toInt)) ∧
    ∃ s', exec (submit settings) executor [payment five] = some s' ∧
      total {1, 2} s'.accountStore = total {1, 2} executor.accountStore := by
  refine ⟨(payments_conserve settings).1 executor (payment five) _ ⟨7, 0⟩ ⟨7, 0⟩ isPayment_five
    rfl rfl, ?_⟩
  obtain ⟨s', hs', -⟩ :=
    executeSingleLocalTransaction_pay (s := executor) settings isPayment_five rfl rfl
  have hsubmit : submit settings executor (payment five) = some s' := by
    unfold submit
    rw [hs']
    rfl
  have hexec : exec (submit settings) executor [payment five] = some s' := by
    unfold exec
    rw [List.foldlM_cons, hsubmit]
    rfl
  refine ⟨s', hexec, (payments_conserve settings).2 {1, 2} executor s' _ (fun a ha => ?_) hexec
    ⟨fitting_five, fun _ _ => trivial⟩⟩
  by_contra hnot
  have hnone : executor.accountStore a = none :=
    if_neg fun h => hnot (by simpa using h)
  rw [hnone] at ha
  exact absurd ha Bool.false_ne_true

/-- A client may send a negative amount: the payment succeeds and takes it from the
    destination. -/
theorem payment_not_conserving :
    ¬ ∀ (cfg : Settings) (s s' : Executor) (t : Submitted) (tx : SmallBankTransaction)
        (src dest src' dest' : AccountState) (success : Bool),
        IsPayment t.txBytes tx → s.accountStore tx.accountId = some src →
        s.accountStore tx.destAccountId = some dest →
        s.executeSingleLocalTransaction cfg t.digest t.txBytes t.header = .ok s' →
        Executor.executeSmallBank s.accountStore tx = .ok (s'.accountStore, success) →
        s'.accountStore tx.accountId = some src' → s'.accountStore tx.destAccountId = some dest' →
        Conserves src dest (src', dest', success) := by
  intro h
  have hpayment : IsPayment (payment minusFive).txBytes ⟨.sendPayment, 1, 2, .finite (-5)⟩ :=
    ⟨parse_payment_minus, rfl, by decide⟩
  obtain ⟨s', hs', hstore⟩ :=
    executeSingleLocalTransaction_pay (s := executor) settings hpayment rfl rfl
  have hsmall : Executor.executeSmallBank executor.accountStore
      ⟨.sendPayment, 1, 2, .finite (-5)⟩ = .ok (s'.accountStore, true) := by
    rw [hstore]
    exact executeSmallBank_pay rfl (by decide) rfl rfl
  have hconserves := h settings executor s' (payment minusFive) _ ⟨7, 0⟩ ⟨7, 0⟩ ⟨12, 0⟩ ⟨2, 0⟩
    true hpayment rfl rfl hs' hsmall
    (by rw [hstore]; decide +kernel) (by rw [hstore]; decide +kernel)
  rcases hconserves with hfail | ⟨-, -, -, paid, hpaid, -⟩
  · exact absurd hfail (by decide)
  · have h₁ : (12 : Int64).toInt = (7 : Int64).toInt - paid := hpaid
    have h₂ : (12 : Int64).toInt = 12 := rfl
    have h₃ : (7 : Int64).toInt = 7 := rfl
    omega

end DagBft.Fusion
