/-
  The two designs side by side: `BatchExecutor`s, between which accounts move, and
  `DistributedTxExecutor`s, which send accounts out and get them back.

  Both execute as one executor would, one transaction after the other. `designs_agree`: given the
  same accounts and batches they end up with the same accounts, for any numbers of executors,
  any partitions and any order of the steps of either.

  The transactions are those that both designs execute (`Admissible`): they parse, their ids are
  different, their accounts exist, and a payment is to another account. No debit leaves the range
  of the balances (`DebitsFit`).
-/
import DagBft.Fusion.Serial
import DagBft.Writeback.Serial

namespace DagBft.Fusion.Course

open Handover

variable {cfg : Settings} {σ : Course cfg} {batches : List Batch} {sys : System}
  {h : State ℕ ℕ} {k : ℕ}

/-- The accounts of all executors when they have processed all batches and nothing is pending. -/
theorem Inv.stores_eq (hi : σ.Inv batches sys h)
    (htasks : σ.tasks.map (fun t => t.tx.txBytes) = sequenceOf batches)
    (hk : sys.Processed cfg.numExecutors batches.length)
    (hqueues : ∀ e < cfg.numExecutors, ∀ a, ((sys.executors e).pendingQueues a).getD [] = [])
    (a : ℕ) (v : Worker.AccountState) :
    (∃ e < cfg.numExecutors, (sys.executors e).accountStore a = some v) ↔
      σ.value σ.tasks.length a = some v := by
  have hoffset : offset batches batches.length = σ.tasks.length := by
    rw [length_tasks_of_map htasks]
    unfold offset
    rw [List.take_length]
  have hheld : ∀ e, h.held e = [] := by
    intro e
    by_cases he : e < cfg.numExecutors
    · rw [List.eq_nil_iff_forall_not_mem]
      intro j hj
      obtain ⟨a, ha⟩ := pending_mem_queue hi.inv hj
      have hq := hqueues e he a
      rw [(hi.site e he).queues, queues, if_neg (List.ne_nil_of_mem ha)] at hq
      exact List.ne_nil_of_mem ha hq
    · exact (hi.others e (Nat.le_of_not_lt he)).2
  have htarget : ∀ j < σ.tasks.length, h.taken (σ.plan.target j) = σ.tasks.length :=
    fun j hj => (hi.taken_eq hk (target_lt hj)).trans hoffset
  have hle : ∀ e, h.taken e ≤ σ.tasks.length := fun e => hoffset ▸ hi.taken_le hk e
  have hfront : σ.value (h.front a) a = σ.value σ.tasks.length a :=
    (hi.inv.eq_front hheld hle htarget (f := σ.value) (fun j a hna => value_of_notMem hna) a).symm
  obtain ⟨owner, hl⟩ := hi.inv.loc_eq_store hheld hle htarget a
  rw [← hfront]
  constructor
  · rintro ⟨e, he, hv⟩
    rw [hi.accountStore he] at hv
    split at hv
    · exact hv
    · cases hv
  · intro hv
    have ha : (σ.initial a).isSome := (isSome_value (h.front a) a).mp (by rw [hv]; rfl)
    have he : owner < cfg.numExecutors := hi.inv.store a owner hl ▸ owner_lt ha _
    exact ⟨owner, he, by rw [hi.accountStore he, if_pos hl, hv]⟩

end DagBft.Fusion.Course

namespace DagBft.Writeback

open Worker Loan
open Fusion (sequenceOf unionStore executeAll)

/-- One executor of either design leaves the same accounts. -/
theorem executeSerially_of_executeAll {l : List Bytes} {store final : AccountStore}
    (h : executeAll l store = .ok final) : executeSerially l store = .ok final := by
  induction l generalizing store with
  | nil => exact h
  | cons txBytes l ih =>
      unfold executeAll at h
      unfold executeSerially
      cases hparse : parseSmallbankPayload txBytes with
      | none =>
          rw [hparse] at h
          cases h
      | some sbTx =>
          simp only [hparse] at h ⊢
          obtain ⟨⟨store', success⟩, hone, h⟩ := bind_eq_ok.mp h
          obtain ⟨state, hone'⟩ := executeSmallBank_of_fusion hone
          rw [hone']
          exact ih h

/-- The designs agree: when executors of both have processed all batches, from the same accounts,
    and nothing is pending, then they have the same accounts. Neither their numbers nor their
    partitions need to be the same, and accounts may be at other executors than at the start. -/
theorem designs_agree (fusion : Fusion.Settings) (cfg : Settings)
    (partition partition' : Fusion.Partition) (stores stores' : ℕ → AccountStore)
    (batches : List Fusion.Batch)
    (hfusion : Fusion.Admissible fusion partition stores batches)
    (hadm : Admissible cfg partition' stores' batches)
    (hsame : unionStore partition stores = unionStore partition' stores')
    (hfit : DebitsFit (sequenceOf batches) (unionStore partition' stores'))
    (events : List Fusion.Event) (henough : ∀ event ∈ events, event.Enough batches)
    (events' : List Event) (henough' : ∀ event ∈ events', event.Enough batches) :
    ∃ sys sys',
      Fusion.System.run fusion batches (Fusion.System.initial partition stores) events = .ok sys ∧
      System.run cfg partition' batches (System.initial partition' stores') events' = .ok sys' ∧
      (sys.Processed fusion.numExecutors batches.length →
        (∀ e < fusion.numExecutors, ∀ a, ((sys.executors e).pendingQueues a).getD [] = []) →
        sys'.Processed cfg.numExecutors batches.length → sys'.NothingPending cfg.numExecutors →
          ∀ a v, (∃ e < fusion.numExecutors, (sys.executors e).accountStore a = some v) ↔
            sys'.union partition' a = some v) := by
  obtain ⟨σ, sys, h, hok, hi, rfl, hstore, htasks⟩ :=
    Fusion.reach fusion partition stores batches hfusion events henough
  obtain ⟨σ', sys', h', hok', hi', hstore', htasks', -⟩ :=
    reach cfg partition' stores' batches hadm events' henough'
  refine ⟨sys, sys', hok, hok', fun hk hqueues hk' hpending a v => ?_⟩
  -- both stop where one executor would
  have hlen := Fusion.Course.length_tasks_of_map htasks
  have hlen' := Course.length_tasks htasks'
  have hserial : executeSerially (sequenceOf batches) (unionStore partition' stores') =
      .ok (σ.value σ.tasks.length) := by
    have hall := Fusion.Course.executeAll_take (σ := σ) σ.tasks.length
    rw [htasks, hlen, List.take_length, hstore, hsame, ← hlen] at hall
    exact executeSerially_of_executeAll hall
  have hserial' : executeSerially (sequenceOf batches) (unionStore partition' stores') =
      .ok (σ'.value σ'.tasks.length) := by
    have hmap : σ'.tasks.map Task.txBytes = sequenceOf batches := by
      rw [htasks', map_txBytes_tasksOf]
    rw [← hmap, ← hstore'] at hfit
    have hall := Course.executeSerially_take hfit le_rfl
    rw [hmap, hlen', List.take_length, hstore', ← hlen'] at hall
    exact hall
  have hvalue : σ.value σ.tasks.length = σ'.value σ'.tasks.length :=
    Except.ok.inj (hserial.symm.trans hserial')
  have hoffset : Course.offset batches batches.length = σ'.tasks.length := by
    rw [hlen']
    unfold Course.offset
    rw [List.take_length]
  rw [hi.stores_eq htasks hk hqueues, hvalue]
  cases ha : partition' a with
  | none =>
      have hnone : σ'.value σ'.tasks.length a = none := by
        rw [← Option.not_isSome_iff_eq_none, Course.isSome_value, ha]
        exact Bool.false_ne_true
      have hunion : sys'.union partition' a = none := by
        unfold System.union unionStore
        rw [ha]
        rfl
      rw [hnone, hunion]
  | some e =>
      have he := hadm.owned a e ha
      rw [hi'.union_eq hpending he ha, hk' e he, hoffset]

/-! ## A payment between two executors, in both designs

Executor 1 sends account 1 to executor 0, which executes the payment; in the other design account 0
goes to executor 1 and back. -/

section Sample

open Fusion.AgreementSample (partition batches)
open Fusion.SerialSample (stores)

theorem designs_agree_sample :
    ∃ sys sys',
      Fusion.System.run Fusion.AgreementSample.settings batches
        (Fusion.System.initial partition stores) Fusion.SerialSample.events = .ok sys ∧
      System.run ReturnSample.settings partition batches (System.initial partition stores)
        ReturnSample.events = .ok sys' ∧
      ∀ a v, (∃ e < 2, (sys.executors e).accountStore a = some v) ↔
        sys'.union partition a = some v := by
  obtain ⟨sys, sys', hok, hok', hagree⟩ :=
    designs_agree Fusion.AgreementSample.settings ReturnSample.settings partition partition stores
      stores batches Fusion.SerialSample.admissible ReturnSample.admissible rfl
      ReturnSample.debitsFit Fusion.SerialSample.events Fusion.SerialSample.enough
      ReturnSample.events ReturnSample.enough
  obtain rfl : Fusion.SerialSample.final = sys :=
    Except.ok.inj (Fusion.SerialSample.run_final.symm.trans hok)
  obtain rfl : ReturnSample.final = sys' :=
    Except.ok.inj (ReturnSample.run_final.symm.trans hok')
  refine ⟨_, _, hok, hok', hagree Fusion.SerialSample.processed_final (fun e he a => ?_)
    ReturnSample.processed_final ReturnSample.nothingPending_final⟩
  rw [Fusion.SerialSample.queues_final e he]
  rfl

end Sample

end DagBft.Writeback
