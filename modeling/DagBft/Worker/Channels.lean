/-
  What an executor exchanges with its `StateHelper`, with other executors and with clients
  (`worker/src/state_helper.rs`, `ClientReplyRequest` of `worker/src/batch_executor.rs`).
-/
import DagBft.Lib.AssocMap
import DagBft.Worker.Transaction
import Mathlib.Data.Multiset.AddSub

namespace DagBft.Worker

/-- State transfer payload sent between executors for account migration. -/
structure StateTransfer where
  txId : TxID
  srcAccountId : ℕ
  srcAccountState : AccountState
deriving DecidableEq

/-- Request from an executor to send a `StateTransfer` to a remote executor. -/
structure StateTransferRequest where
  stateTransfer : StateTransfer
  destExecutorId : ℕ
deriving DecidableEq

structure SocketAddr where
  ip : ℕ
  port : ℕ
deriving DecidableEq, Repr

structure ClientReplyRequest where
  batchDigest : Bytes
  clientAddr : SocketAddr
  txType : ℕ
  txId : TxID
  success : Bool
  accountId : ℕ
  accountState : Option AccountState
deriving DecidableEq

/-- The transfers that arrived, by transaction. -/
abbrev TransferMap := AList fun _ : TxID => List StateTransfer

namespace TransferMap

/-- The transfers for a transaction; none if it is not in the map. -/
def get (m : TransferMap) (id : TxID) : List StateTransfer := (m.lookup id).getD []

/-- `handle_executor_message`: `entry(tx_id).or_insert_with(Vec::new).push(transfer)`. -/
def push (m : TransferMap) (t : StateTransfer) : TransferMap :=
  m.insert t.txId (m.get t.txId ++ [t])

/-- `entry(tx_id).or_default().extend(transfers)` for each entry of the other map. -/
def extend (m other : TransferMap) : TransferMap :=
  other.entries.foldl (fun m x => m.insert x.1 (m.get x.1 ++ x.2)) m

@[simp]
theorem get_empty (id : TxID) : (∅ : TransferMap).get id = [] := rfl

theorem get_insert (m : TransferMap) (id id' : TxID) (l : List StateTransfer) :
    TransferMap.get (m.insert id l) id' = if id' = id then l else m.get id' := by
  unfold get
  rw [AList.lookup_insert_eq]
  split <;> rfl

theorem get_erase (m : TransferMap) (id id' : TxID) :
    TransferMap.get (m.erase id) id' = if id' = id then [] else m.get id' := by
  unfold get
  split
  · rename_i h
    rw [h, AList.lookup_erase]
    rfl
  · rename_i h
    rw [AList.lookup_erase_ne h]

theorem get_extend (m other : TransferMap) (id : TxID) :
    (m.extend other).get id = m.get id ++ other.get id := by
  have key : ∀ (l : List (Sigma fun _ : TxID => List StateTransfer)) (m : TransferMap),
      l.NodupKeys → TransferMap.get (l.foldl (fun m x => m.insert x.1 (m.get x.1 ++ x.2)) m) id =
        m.get id ++ (l.dlookup id).getD [] := by
    intro l
    induction l with
    | nil => intro m _; simp
    | cons x l ih =>
        intro m hnodup
        obtain ⟨k, v⟩ := x
        rw [List.nodupKeys_cons] at hnodup
        rw [List.foldl_cons, ih _ hnodup.2, get_insert]
        by_cases hk : id = k
        · subst hk
          rw [List.dlookup_cons_eq, List.dlookup_eq_none.mpr hnodup.1]
          simp
        · rw [List.dlookup_cons_ne _ _ hk]
          simp [hk]
  exact key other.entries m other.nodupKeys

/-! ## All transfers of a map -/

/-- The transfers, whatever their transaction. -/
def all (m : TransferMap) : Multiset StateTransfer := (m.entries.flatMap fun x => x.2 : List _)

@[simp]
theorem all_empty : (∅ : TransferMap).all = 0 := rfl

theorem all_erase (m : TransferMap) (id : TxID) :
    m.all = TransferMap.all (m.erase id) + (m.get id : Multiset StateTransfer) := by
  have key : ∀ l : List (Sigma fun _ : TxID => List StateTransfer), l.NodupKeys →
      (l.flatMap fun x => x.2).Perm
        (((l.kerase id).flatMap fun x => x.2) ++ (l.dlookup id).getD []) := by
    intro l
    induction l with
    | nil => intro _; exact List.Perm.refl _
    | cons x l ih =>
        intro hnodup
        obtain ⟨k, v⟩ := x
        rw [List.nodupKeys_cons] at hnodup
        by_cases hk : id = k
        · subst hk
          have herase : List.kerase id (⟨id, v⟩ :: l) = l := List.kerase_cons_eq rfl
          rw [herase, List.dlookup_cons_eq, List.flatMap_cons]
          exact List.perm_append_comm
        · rw [List.kerase_cons_ne hk, List.dlookup_cons_ne _ _ hk, List.flatMap_cons,
            List.flatMap_cons, List.append_assoc]
          exact (ih hnodup.2).append_left v
  exact Multiset.coe_eq_coe.mpr (key m.entries m.nodupKeys)

theorem all_insert (m : TransferMap) (id : TxID) (l : List StateTransfer) :
    TransferMap.all (m.insert id l) =
      TransferMap.all (m.erase id) + (l : Multiset StateTransfer) := by
  unfold all
  rw [AList.entries_insert, List.flatMap_cons, Multiset.coe_add, Multiset.coe_eq_coe]
  exact List.perm_append_comm

theorem all_append (m : TransferMap) (id : TxID) (l : List StateTransfer) :
    TransferMap.all (m.insert id (m.get id ++ l)) = m.all + (l : Multiset StateTransfer) := by
  rw [all_insert, all_erase m id, add_assoc, Multiset.coe_add]

theorem all_push (m : TransferMap) (t : StateTransfer) : (m.push t).all = m.all + {t} :=
  all_append m t.txId [t]

theorem all_extend (m other : TransferMap) : (m.extend other).all = m.all + other.all := by
  have key : ∀ (l : List (Sigma fun _ : TxID => List StateTransfer)) (m : TransferMap),
      (l.foldl (fun m x => m.insert x.1 (TransferMap.get m x.1 ++ x.2)) m).all =
        m.all + (l.flatMap fun x => x.2 : List StateTransfer) := by
    intro l
    induction l with
    | nil => intro m; simp
    | cons x l ih =>
        intro m
        rw [List.foldl_cons, ih, all_append, List.flatMap_cons, add_assoc, Multiset.coe_add]
  exact key other.entries m

theorem mem_all {m : TransferMap} {t : StateTransfer} (id : TxID) (h : t ∈ m.get id) :
    t ∈ m.all := by
  rw [all_erase m id, Multiset.mem_add]
  exact Or.inr h

/-- Every transfer is with its transaction, and no list is empty. -/
structure Tidy (m : TransferMap) : Prop where
  txId : ∀ id, ∀ t ∈ m.get id, t.txId = id
  ne_nil : ∀ id, id ∈ m → m.get id ≠ []

theorem Tidy.mem_get {m : TransferMap} (h : m.Tidy) {t : StateTransfer} (ht : t ∈ m.all) :
    t ∈ m.get t.txId := by
  unfold all at ht
  obtain ⟨⟨id, l⟩, hx, ht⟩ := List.mem_flatMap.mp (Multiset.mem_coe.mp ht)
  have hget : m.get id = l := by
    unfold get
    rw [AList.mem_entries_iff.mp hx]
    rfl
  rw [← hget] at ht
  rw [h.txId id t ht]
  exact ht

theorem mem_of_get_ne_nil {m : TransferMap} {id : TxID} (h : m.get id ≠ []) : id ∈ m := by
  by_contra hnot
  unfold get at h
  rw [AList.lookup_eq_none.mpr hnot] at h
  exact h rfl

theorem tidy_empty : Tidy ∅ :=
  ⟨fun _ _ h => absurd h List.not_mem_nil, fun _ h => absurd h (AList.notMem_empty _)⟩

theorem Tidy.append {m : TransferMap} (h : m.Tidy) {id : TxID} {l : List StateTransfer}
    (hl : ∀ t ∈ l, t.txId = id) (hne : l ≠ []) :
    Tidy (m.insert id (m.get id ++ l)) where
  txId id' t ht := by
    rw [get_insert] at ht
    split at ht
    · rename_i he
      rw [he]
      exact (List.mem_append.mp ht).elim (h.txId id t) (hl t)
    · exact h.txId id' t ht
  ne_nil id' hmem := by
    rw [get_insert]
    split
    · simp [hne]
    · rename_i he
      exact h.ne_nil id' ((AList.mem_insert _ |>.mp hmem).resolve_left he)

theorem Tidy.push {m : TransferMap} (h : m.Tidy) (t : StateTransfer) : Tidy (m.push t) :=
  h.append (by simp) (by simp)

theorem Tidy.erase {m : TransferMap} (h : m.Tidy) (id : TxID) : Tidy (m.erase id) where
  txId id' t ht := by
    rw [get_erase] at ht
    split at ht
    · cases ht
    · exact h.txId id' t ht
  ne_nil id' hmem := by
    obtain ⟨hne, hmem⟩ := AList.mem_erase.mp hmem
    rw [get_erase, if_neg hne]
    exact h.ne_nil id' hmem

theorem Tidy.extend {m other : TransferMap} (h : m.Tidy) (ho : other.Tidy) :
    Tidy (m.extend other) := by
  have key : ∀ (l : List (Sigma fun _ : TxID => List StateTransfer)) (m : TransferMap), m.Tidy →
      (∀ x ∈ l, (∀ t ∈ x.2, t.txId = x.1) ∧ x.2 ≠ []) →
      Tidy (l.foldl (fun m x => m.insert x.1 (TransferMap.get m x.1 ++ x.2)) m) := by
    intro l
    induction l with
    | nil => intro m hm _; exact hm
    | cons x l ih =>
        intro m hm hall
        rw [List.forall_mem_cons] at hall
        exact ih _ (hm.append hall.1.1 hall.1.2) hall.2
  refine key other.entries m h fun x hx => ?_
  obtain ⟨id, l⟩ := x
  have hlook : other.lookup id = some l := AList.mem_entries_iff.mp hx
  have hget : other.get id = l := by
    unfold get
    rw [hlook]
    rfl
  have hmem : id ∈ other := AList.lookup_isSome.mp (by rw [hlook]; rfl)
  rw [← hget]
  exact ⟨ho.txId id, ho.ne_nil id hmem⟩

end TransferMap

end DagBft.Worker
