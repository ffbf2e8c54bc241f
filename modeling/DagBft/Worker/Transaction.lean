/-
  The bytes of a transaction (`worker/src/transaction.rs`): a header of 10 bytes and,
  from offset 10, the 25 bytes of a SmallBank payload.
-/
import DagBft.Worker.Workload

namespace DagBft.Worker

/-- Unique identifier for a transaction across the system. -/
structure TxID where
  regionId : ℕ
  txCounter : ℕ
deriving DecidableEq, Repr, Inhabited

/-- Parsed transaction header (first 10 bytes of any transaction). -/
structure TransactionHeader where
  txType : ℕ
  id : TxID
deriving DecidableEq, Repr, Inhabited

def sampleTxType : ℕ := 0

namespace TransactionHeader

def parse (bytes : Bytes) : Option TransactionHeader :=
  if bytes.length < 10 then
    none
  else
    some ⟨(bytes.getD 0 0).toNat, ⟨(bytes.getD 1 0).toNat, fromBeBytes (slice bytes 2 10)⟩⟩

def isSample (h : TransactionHeader) : Bool := h.txType = sampleTxType

end TransactionHeader

/-- `Transaction::extract_account_ids`. -/
def extractAccountIds (raw : Bytes) : Option ℕ × Option ℕ :=
  if raw.length < 26 then
    (none, none)
  else
    (some (fromBeBytes (slice raw 10 18)), some (fromBeBytes (slice raw 18 26)))

/-- `Transaction::parse_smallbank_payload`. -/
def parseSmallbankPayload (raw : Bytes) : Option SmallBankTransaction :=
  if raw.length < 35 then none else SmallBankTransaction.fromBytes (slice raw 10 35)

end DagBft.Worker
