/-
  The SmallBank workload (`worker/src/workload.rs`): account states, the operations on
  them and the payload of a transaction.

  Balances are `i64` as the release build computes them: what the source does not
  saturate wraps around.
-/
import DagBft.Crypto
import DagBft.Lib.Double

namespace DagBft.Worker

/-- `from_be_bytes`. -/
def fromBeBytes (bytes : Bytes) : ℕ := bytes.foldl (fun n b => n * 256 + b.toNat) 0

/-- `bytes[i..j]`. -/
def slice (bytes : Bytes) (i j : ℕ) : Bytes := (bytes.drop i).take (j - i)

/-- SmallBank transaction types. -/
inductive SmallBankTxType
  | balance
  | depositChecking
  | transactSavings
  | writeCheck
  | sendPayment
deriving DecidableEq, Repr

def SmallBankTxType.fromU8 : ℕ → Option SmallBankTxType
  | 0 => some .balance
  | 1 => some .depositChecking
  | 2 => some .transactSavings
  | 3 => some .writeCheck
  | 4 => some .sendPayment
  | _ => none

/-- SmallBank transaction representation. -/
structure SmallBankTransaction where
  txType : SmallBankTxType
  accountId : ℕ
  destAccountId : ℕ
  amount : Double
deriving DecidableEq

def SmallBankTransaction.fromBytes (bytes : Bytes) : Option SmallBankTransaction :=
  if bytes.length < 25 then
    none
  else
    (SmallBankTxType.fromU8 (bytes.getD 16 0).toNat).map fun txType =>
      { txType := txType
        accountId := fromBeBytes (slice bytes 0 8)
        destAccountId := fromBeBytes (slice bytes 8 16)
        amount := Double.ofBits (fromBeBytes (slice bytes 17 25)) }

/-- `i64::saturating_add`. -/
def saturatingAdd (a b : Int64) : Int64 := Int64.ofIntClamp (a.toInt + b.toInt)

/-- `i64::saturating_sub`. -/
def saturatingSub (a b : Int64) : Int64 := Int64.ofIntClamp (a.toInt - b.toInt)

/-- Account state in SmallBank workload. -/
structure AccountState where
  checkingBalance : Int64
  savingsBalance : Int64
deriving DecidableEq

namespace AccountState

variable (s : AccountState) (amount : Double)

def totalBalance : Int64 := saturatingAdd s.checkingBalance s.savingsBalance

/-- The methods that change the state give the new state and whether they succeed. -/
def executeDepositChecking : AccountState × Bool :=
  ({ s with checkingBalance := saturatingAdd s.checkingBalance amount.toInt64 }, true)

def executeTransactSavings : AccountState × Bool :=
  let newBalance := s.savingsBalance - amount.toInt64
  if newBalance < 0 then (s, false) else ({ s with savingsBalance := newBalance }, true)

def executeWriteCheck : AccountState × Bool :=
  let deduction :=
    if s.totalBalance < amount.toInt64 then (amount.sub Double.one).toInt64 else amount.toInt64
  ({ s with checkingBalance := saturatingSub s.checkingBalance deduction }, true)

def executeSendPaymentDebit : AccountState × Bool :=
  let newBalance := s.checkingBalance - amount.toInt64
  if newBalance < 0 then (s, false) else ({ s with checkingBalance := newBalance }, true)

def executeSendPaymentCredit : AccountState :=
  { s with checkingBalance := saturatingAdd s.checkingBalance amount.toInt64 }

end AccountState

/-- In-memory account store. -/
abbrev AccountStore := ℕ → Option AccountState

/-- `get_mut(..).expect(..)` and one of the methods of the account state. -/
def AccountStore.update (store : AccountStore) (account : ℕ)
    (f : AccountState → AccountState × Bool) : Option (AccountStore × Bool) :=
  (store account).map fun s => (Function.update store account (some (f s).1), (f s).2)

/-- The accounts that a transaction works on. -/
def SmallBankTransaction.requiredAccounts (tx : SmallBankTransaction) : List ℕ :=
  match tx.txType with
  | .sendPayment => [tx.accountId, tx.destAccountId]
  | _ => [tx.accountId]

end DagBft.Worker
