/-
  The batches of a replayed trace (`executor-replay`: `config/src/replay.rs` and
  `worker/src/replay_batch_generator.rs`).

  What the random generator draws for a transaction is given. The counters are `u64` of the
  release build; a transaction and its header are those of `Worker/Transaction`, where the
  first field of the `TxID` is the client id. `unique_ids_iff`: the counters of a batch begin
  at its index times its own size, so that ids are unique only if these arcs of the `u64`
  circle do not overlap.
-/
import DagBft.Worker.Transaction
import Mathlib.Data.List.Nodup
import Mathlib.Data.List.Perm.Basic

namespace DagBft.Replay

open Worker

/-! ## assign_batches_round_robin -/

structure ReplayEntry where
  timestampMs : ℕ
  sizeBytes : ℕ

structure ReplayAssignment where
  batchIndex : ℕ
  workerId : ℕ
  numTx : ℕ
  timestampMs : ℕ

/-- `num_tx`. -/
def ReplayEntry.numTx (txSize : ℕ) (entry : ReplayEntry) : ℕ := max 1 (entry.sizeBytes / txSize)

/-- An entry with its index. -/
def assignment (numWorkers txSize : ℕ) (x : ReplayEntry × ℕ) : ReplayAssignment where
  batchIndex := x.2
  workerId := x.2 % 2 ^ 32 % numWorkers
  numTx := x.1.numTx txSize
  timestampMs := x.1.timestampMs

/-- `none` where it divides by zero. -/
def assignBatchesRoundRobin (entries : List ReplayEntry) (numWorkers txSize : ℕ) :
    Option (List ReplayAssignment) :=
  if entries ≠ [] ∧ (numWorkers = 0 ∨ txSize = 0) then none
  else some (entries.zipIdx.map (assignment numWorkers txSize))

/-! ## ReplayBatchGenerator -/

/-- What is drawn for a transaction. -/
structure Drawn where
  srcAccount : ℕ
  destAccount : ℕ
  sbTxType : ℕ

/-- The lowest `k` bytes, highest first: `to_be_bytes`. -/
def toBeBytes : ℕ → ℕ → Bytes
  | 0, _ => []
  | k + 1, n => toBeBytes k (n / 256) ++ [UInt8.ofNat n]

/-- The bits of the amount: 1.3, 20.20, 5.0 and 0.0. -/
def amountBits : ℕ → ℕ
  | 1 => 0x3FF4CCCCCCCCCCCD
  | 2 => 0x4034333333333333
  | 3 => 0x4014000000000000
  | 4 => 0x4014000000000000
  | _ => 0

/-- Unique counter per tx to avoid TxID collisions in state transfer maps. -/
def txCounter (a : ReplayAssignment) (txIndex : ℕ) : ℕ :=
  (a.batchIndex * a.numTx + txIndex) % 2 ^ 64

/-- One transaction, `none` if the size leaves no room for its fields. -/
def generateTransaction (txSize : ℕ) (a : ReplayAssignment) (txIndex : ℕ) (d : Drawn) :
    Option Bytes :=
  if txSize < 35 then none
  else some ([1, 0] ++ toBeBytes 8 (txCounter a txIndex) ++
    toBeBytes 8 d.srcAccount ++ toBeBytes 8 d.destAccount ++ [UInt8.ofNat d.sbTxType] ++
    toBeBytes 8 (amountBits d.sbTxType) ++ List.replicate (txSize - 35) 0)

section Generator

variable (entries : List ReplayEntry) (numWorkers txSize : ℕ) (drawn : ℕ → ℕ → Drawn)

def generateBatch (a : ReplayAssignment) : Option (List Bytes) :=
  (List.range a.numTx).mapM fun txIndex =>
    generateTransaction txSize a txIndex (drawn a.batchIndex txIndex)

/-- The batches of worker `id`. -/
def generateBatches (id : ℕ) : Option (List (List Bytes)) := do
  let assignments ← assignBatchesRoundRobin entries numWorkers txSize
  (assignments.filter fun a => a.workerId = id).mapM (generateBatch txSize drawn)

/-- The ids in the headers of a batch. -/
def txIds (batch : List Bytes) : List TxID :=
  batch.filterMap fun tx => (TransactionHeader.parse tx).map (·.id)

/-- No id comes twice in the batches of all workers. -/
def UniqueIds : Prop :=
  ∀ batches : ℕ → List (List Bytes),
    (∀ id < numWorkers, generateBatches entries numWorkers txSize drawn id = some (batches id)) →
    ((List.range numWorkers).flatMap fun id => (batches id).flatMap txIds).Nodup

/-- How far `b` is behind `a` on the `u64` circle. -/
def distance (a b : ℕ) : ℕ := (b + (2 ^ 64 - a % 2 ^ 64)) % 2 ^ 64

/-- Every batch ends before another one in the circle begins. -/
def Spaced : Prop :=
  ∀ x ∈ entries.zipIdx, ∀ y ∈ entries.zipIdx, x.2 ≠ y.2 →
    x.1.numTx txSize ≤ distance (x.2 * x.1.numTx txSize) (y.2 * y.1.numTx txSize)

instance : Decidable (Spaced entries txSize) :=
  inferInstanceAs (Decidable (∀ x ∈ entries.zipIdx, ∀ y ∈ entries.zipIdx, x.2 ≠ y.2 →
    x.1.numTx txSize ≤ distance (x.2 * x.1.numTx txSize) (y.2 * y.1.numTx txSize)))

end Generator

/-! ## Ids -/

theorem fromBeBytes_snoc (bytes : Bytes) (b : UInt8) :
    fromBeBytes (bytes ++ [b]) = fromBeBytes bytes * 256 + b.toNat := by
  unfold fromBeBytes
  rw [List.foldl_append]
  rfl

theorem length_toBeBytes (k n : ℕ) : (toBeBytes k n).length = k := by
  induction k generalizing n with
  | zero => rfl
  | succ k ih => rw [toBeBytes, List.length_append, ih, List.length_singleton]

theorem fromBeBytes_toBeBytes (k n : ℕ) : fromBeBytes (toBeBytes k n) = n % 256 ^ k := by
  induction k generalizing n with
  | zero => rw [Nat.pow_zero, Nat.mod_one]; rfl
  | succ k ih =>
      have hbyte : (UInt8.ofNat n).toNat = n % 256 := UInt8.toNat_ofNat
      rw [toBeBytes, fromBeBytes_snoc, ih, hbyte, Nat.pow_succ, Nat.mul_comm (256 ^ k),
        Nat.mod_mul]
      omega

theorem parse_header (counter rest : Bytes) (h : counter.length = 8) :
    TransactionHeader.parse (1 :: 0 :: (counter ++ rest)) =
      some ⟨1, ⟨0, fromBeBytes counter⟩⟩ := by
  have hlen : ¬ (1 :: 0 :: (counter ++ rest) : Bytes).length < 10 := by
    rw [List.length_cons, List.length_cons, List.length_append]
    omega
  have hslice : slice (1 :: 0 :: (counter ++ rest)) 2 10 = counter :=
    List.take_left' h
  unfold TransactionHeader.parse
  rw [if_neg hlen, hslice]
  rfl

theorem id_generateTransaction {txSize txIndex : ℕ} {a : ReplayAssignment} {d : Drawn}
    {tx : Bytes} (h : generateTransaction txSize a txIndex d = some tx) :
    (TransactionHeader.parse tx).map (·.id) = some ⟨0, txCounter a txIndex⟩ := by
  unfold generateTransaction at h
  split at h
  · cases h
  · obtain rfl := Option.some.inj h
    have hcounter : txCounter a txIndex % 256 ^ 8 = txCounter a txIndex := Nat.mod_mod _ _
    simp only [List.append_assoc, List.cons_append, List.nil_append]
    rw [parse_header _ _ (length_toBeBytes 8 _), fromBeBytes_toBeBytes, hcounter]
    rfl

/-- The ids that the transactions of an assignment get. -/
def idsOf (a : ReplayAssignment) : List TxID :=
  (List.range a.numTx).map fun t => ⟨0, txCounter a t⟩

variable {entries : List ReplayEntry} {numWorkers txSize : ℕ} {drawn : ℕ → ℕ → Drawn}
  {a : ReplayAssignment}

theorem generateBatch_eq_some (drawn : ℕ → ℕ → Drawn) (hsize : 35 ≤ txSize)
    (a : ReplayAssignment) :
    ∃ batch, generateBatch txSize drawn a = some batch ∧ txIds batch = idsOf a := by
  unfold generateBatch idsOf
  induction List.range a.numTx with
  | nil => exact ⟨[], rfl, rfl⟩
  | cons t l ih =>
      obtain ⟨batch, hbatch, hids⟩ := ih
      cases htx : generateTransaction txSize a t (drawn a.batchIndex t) with
      | none =>
          unfold generateTransaction at htx
          rw [if_neg (by omega)] at htx
          cases htx
      | some tx =>
          refine ⟨tx :: batch, ?_, ?_⟩
          · rw [List.mapM_cons, htx, hbatch]
            rfl
          · unfold txIds at hids ⊢
            rw [List.filterMap_cons, id_generateTransaction htx, hids]
            rfl

theorem generateBatch_eq_none (hsize : txSize < 35) (hpos : 0 < a.numTx) :
    generateBatch txSize drawn a = none := by
  unfold generateBatch
  obtain ⟨n, hn⟩ : ∃ n, a.numTx = n + 1 := ⟨a.numTx - 1, by omega⟩
  rw [hn, List.range_succ_eq_map, List.mapM_cons, generateTransaction, if_pos hsize]
  rfl

/-! ## Arcs of the circle -/

/-- The last `0 ≤ t < m` steps from `a` and those from `b` meet if and only if one of the two
    begins within the other. -/
theorem arcs_meet_iff {a b m n : ℕ} (hm : 0 < m) (hn : 0 < n) :
    (∃ t < m, ∃ u < n, (a + t) % 2 ^ 64 = (b + u) % 2 ^ 64) ↔
      distance a b < m ∨ distance b a < n := by
  unfold distance
  constructor
  · rintro ⟨t, ht, u, hu, h⟩
    rcases Nat.le_total u t with hle | hle
    · left
      have hmod : (b + (2 ^ 64 - a % 2 ^ 64)) % 2 ^ 64 = (t - u) % 2 ^ 64 := by omega
      have := Nat.mod_le (t - u) (2 ^ 64)
      omega
    · right
      have hmod : (a + (2 ^ 64 - b % 2 ^ 64)) % 2 ^ 64 = (u - t) % 2 ^ 64 := by omega
      have := Nat.mod_le (u - t) (2 ^ 64)
      omega
  · rintro (h | h)
    · exact ⟨_, h, 0, hn, by omega⟩
    · exact ⟨0, hm, _, h, by omega⟩

theorem nodup_idsOf (h : a.numTx ≤ 2 ^ 64) : (idsOf a).Nodup := by
  unfold idsOf
  refine List.Nodup.map_on (fun t ht u hu heq => ?_) List.nodup_range
  have hcounter : txCounter a t = txCounter a u := congrArg TxID.txCounter heq
  have := List.mem_range.mp ht
  have := List.mem_range.mp hu
  unfold txCounter at hcounter
  generalize a.batchIndex * a.numTx = start at hcounter
  omega

theorem disjoint_idsOf {b : ReplayAssignment} (ha : 0 < a.numTx) (hb : 0 < b.numTx) :
    (idsOf a).Disjoint (idsOf b) ↔
      a.numTx ≤ distance (a.batchIndex * a.numTx) (b.batchIndex * b.numTx) ∧
        b.numTx ≤ distance (b.batchIndex * b.numTx) (a.batchIndex * a.numTx) := by
  have hmeet := arcs_meet_iff (a := a.batchIndex * a.numTx) (b := b.batchIndex * b.numTx) ha hb
  rw [← not_lt, ← not_lt, ← not_or, ← hmeet]
  unfold idsOf
  constructor
  · rintro hdisjoint ⟨t, ht, u, hu, heq⟩
    refine hdisjoint (List.mem_map_of_mem (List.mem_range.mpr ht)) ?_
    rw [show txCounter a t = txCounter b u from heq]
    exact List.mem_map_of_mem (List.mem_range.mpr hu)
  · intro hnone id hid hid'
    obtain ⟨t, ht, rfl⟩ := List.mem_map.mp hid
    obtain ⟨u, hu, heq⟩ := List.mem_map.mp hid'
    exact hnone ⟨t, List.mem_range.mp ht, u, List.mem_range.mp hu,
      (congrArg TxID.txCounter heq).symm⟩

/-! ## All workers -/

theorem nodup_zipIdx (l : List ReplayEntry) : l.zipIdx.Nodup := by
  refine List.Nodup.of_map Prod.snd ?_
  rw [List.zipIdx_map_snd]
  exact List.nodup_range'

theorem eq_of_mem_zipIdx {x y : ReplayEntry × ℕ} (hx : x ∈ entries.zipIdx)
    (hy : y ∈ entries.zipIdx) (h : x.2 = y.2) : x = y := by
  have hx' := List.mem_zipIdx_iff_getElem?.mp hx
  have hy' := List.mem_zipIdx_iff_getElem?.mp hy
  rw [h, hy'] at hx'
  exact Prod.ext (Option.some.inj hx').symm h

theorem nodup_flatMap_idsOf (numWorkers : ℕ) (hsize : ∀ e ∈ entries, e.sizeBytes < 2 ^ 64) :
    ((entries.zipIdx.map (assignment numWorkers txSize)).flatMap idsOf).Nodup ↔
      Spaced entries txSize := by
  have hpos : ∀ x : ReplayEntry × ℕ, 0 < (assignment numWorkers txSize x).numTx :=
    fun x => Nat.lt_of_lt_of_le Nat.one_pos (Nat.le_max_left _ _)
  have hnodup : ∀ a ∈ entries.zipIdx.map (assignment numWorkers txSize), (idsOf a).Nodup := by
    intro a ha
    obtain ⟨⟨e, i⟩, he, rfl⟩ := List.mem_map.mp ha
    have hmem := hsize e (List.fst_mem_of_mem_zipIdx he)
    refine nodup_idsOf ?_
    show max 1 (e.sizeBytes / txSize) ≤ 2 ^ 64
    have := Nat.div_le_self e.sizeBytes txSize
    omega
  rw [List.nodup_flatMap, and_iff_right hnodup, List.pairwise_map]
  constructor
  · intro h x hx y hy hne
    have hsymm : Std.Symm fun x y => Function.onFun List.Disjoint idsOf
        (assignment numWorkers txSize x) (assignment numWorkers txSize y) :=
      ⟨fun _ _ h => h.symm⟩
    exact ((disjoint_idsOf (hpos x) (hpos y)).mp
      (h.forall hx hy fun heq => hne (congrArg Prod.snd heq))).1
  · intro h
    refine (nodup_zipIdx entries).pairwise_of_forall_ne fun x hx y hy hne => ?_
    have hidx : x.2 ≠ y.2 := fun heq => hne (eq_of_mem_zipIdx hx hy heq)
    exact (disjoint_idsOf (hpos x) (hpos y)).mpr ⟨h x hx y hy hidx, h y hy x hx hidx.symm⟩

theorem flatMap_ite (l : List ℕ) (k : ℕ) (a : ReplayAssignment) :
    l.flatMap (fun id => if id = k then [a] else []) = List.replicate (l.count k) a := by
  induction l with
  | nil => rfl
  | cons id l ih =>
      rw [List.flatMap_cons, ih]
      by_cases h : id = k
      · rw [if_pos h, h, List.count_cons_self, List.replicate_succ]
        rfl
      · rw [if_neg h, List.count_cons_of_ne h]
        rfl

/-- What the workers take together is what was assigned. -/
theorem perm_flatMap_filter {l : List ReplayAssignment} (h : ∀ a ∈ l, a.workerId < numWorkers) :
    ((List.range numWorkers).flatMap fun id => l.filter fun a => a.workerId = id).Perm l := by
  induction l with
  | nil => simp
  | cons a l ih =>
      have hsplit : ∀ id, (a :: l).filter (fun a => decide (a.workerId = id)) =
          (if id = a.workerId then [a] else []) ++ l.filter fun a => a.workerId = id := by
        intro id
        rw [List.filter_cons]
        by_cases hid : a.workerId = id
        · simp [hid]
        · simp [hid, Ne.symm hid]
      have hone : (List.range numWorkers).flatMap
          (fun id => if id = a.workerId then [a] else []) = [a] := by
        rw [flatMap_ite, List.count_eq_one_of_mem List.nodup_range
          (List.mem_range.mpr (h a List.mem_cons_self))]
        rfl
      simp only [hsplit]
      refine (List.flatMap_append_perm _ _ _).symm.trans ?_
      rw [hone]
      exact (ih fun b hb => h b (List.mem_cons_of_mem _ hb)).cons a

theorem generateBatches_eq_some (drawn : ℕ → ℕ → Drawn) (hsize : 35 ≤ txSize)
    (l : List ReplayAssignment) :
    ∃ batches, l.mapM (generateBatch txSize drawn) = some batches ∧
      batches.flatMap txIds = l.flatMap idsOf := by
  induction l with
  | nil => exact ⟨[], rfl, rfl⟩
  | cons a l ih =>
      obtain ⟨batch, hbatch, hids⟩ := generateBatch_eq_some drawn hsize a
      obtain ⟨batches, hbatches, hids'⟩ := ih
      refine ⟨batch :: batches, ?_, ?_⟩
      · rw [List.mapM_cons, hbatch, hbatches]
        rfl
      · rw [List.flatMap_cons, List.flatMap_cons, hids, hids']

theorem generateBatches_of_pos (entries : List ReplayEntry) (drawn : ℕ → ℕ → Drawn)
    (hworkers : 0 < numWorkers) (hsize : 0 < txSize) (id : ℕ) :
    generateBatches entries numWorkers txSize drawn id =
      ((entries.zipIdx.map (assignment numWorkers txSize)).filter
        fun a => a.workerId = id).mapM (generateBatch txSize drawn) := by
  unfold generateBatches assignBatchesRoundRobin
  rw [if_neg (by omega)]
  rfl

/-- Worker 0 stops at its first transaction. -/
theorem generateBatches_eq_none (hworkers : 0 < numWorkers) (hsize : txSize < 35)
    {e : ReplayEntry} : generateBatches (e :: entries) numWorkers txSize drawn 0 = none := by
  rcases Nat.eq_zero_or_pos txSize with rfl | hpos
  · unfold generateBatches assignBatchesRoundRobin
    rw [if_pos ⟨List.cons_ne_nil _ _, Or.inr rfl⟩]
    rfl
  · have hfirst : (assignment numWorkers txSize (e, 0)).workerId = 0 := Nat.zero_mod _
    rw [generateBatches_of_pos _ _ hworkers hpos, List.zipIdx_cons, List.map_cons, List.filter_cons,
      if_pos (decide_eq_true hfirst), List.mapM_cons,
      generateBatch_eq_none hsize (Nat.lt_of_lt_of_le Nat.one_pos (Nat.le_max_left _ _))]
    rfl

/-- The ids are unique if and only if the counters of two batches never overlap, unless the
    generator stops before the first transaction. -/
theorem unique_ids_iff (entries : List ReplayEntry) (numWorkers txSize : ℕ)
    (drawn : ℕ → ℕ → Drawn) (hsize : ∀ e ∈ entries, e.sizeBytes < 2 ^ 64) :
    UniqueIds entries numWorkers txSize drawn ↔
      numWorkers = 0 ∨ txSize < 35 ∨ Spaced entries txSize := by
  rcases Nat.eq_zero_or_pos numWorkers with rfl | hworkers
  · refine iff_of_true (fun batches _ => ?_) (Or.inl rfl)
    exact List.nodup_nil
  rw [or_iff_right (Nat.ne_of_gt hworkers)]
  rcases Nat.lt_or_ge txSize 35 with hsmall | hlarge
  · refine iff_of_true (fun batches h => ?_) (Or.inl hsmall)
    cases entries with
    | nil =>
        have hempty : ∀ id ∈ List.range numWorkers, (batches id).flatMap txIds = [] := by
          intro id hid
          have hid' : some [] = some (batches id) := h id (List.mem_range.mp hid)
          rw [← Option.some.inj hid']
          rfl
        rw [List.flatMap_eq_nil_iff.mpr hempty]
        exact List.nodup_nil
    | cons e entries =>
        have hnone := h 0 hworkers
        rw [generateBatches_eq_none hworkers hsmall] at hnone
        cases hnone
  rw [or_iff_right (Nat.not_lt.mpr hlarge),
    ← nodup_flatMap_idsOf numWorkers hsize]
  have hlt : ∀ a ∈ entries.zipIdx.map (assignment numWorkers txSize), a.workerId < numWorkers := by
    intro a ha
    obtain ⟨x, -, rfl⟩ := List.mem_map.mp ha
    exact Nat.mod_lt _ hworkers
  have hgenerate := generateBatches_of_pos entries drawn hworkers (show 0 < txSize by omega)
  have hperm : ∀ batches : ℕ → List (List Bytes), (∀ id < numWorkers,
      generateBatches entries numWorkers txSize drawn id = some (batches id)) →
      ((List.range numWorkers).flatMap fun id => (batches id).flatMap txIds).Perm
        ((entries.zipIdx.map (assignment numWorkers txSize)).flatMap idsOf) := by
    intro batches hbatches
    have hids : ∀ id ∈ List.range numWorkers, (batches id).flatMap txIds =
        ((entries.zipIdx.map (assignment numWorkers txSize)).filter
          fun a => a.workerId = id).flatMap idsOf := by
      intro id hid
      have hid' := hbatches id (List.mem_range.mp hid)
      obtain ⟨batches', hsome, hids⟩ := generateBatches_eq_some drawn hlarge
        ((entries.zipIdx.map (assignment numWorkers txSize)).filter fun a => a.workerId = id)
      rw [hgenerate id, hsome] at hid'
      rw [← Option.some.inj hid', hids]
    rw [List.flatMap_congr hids, ← List.flatMap_assoc]
    exact (perm_flatMap_filter hlt).flatMap_right idsOf
  constructor
  · intro h
    have hex : ∀ id, ∃ batches,
        generateBatches entries numWorkers txSize drawn id = some batches := by
      intro id
      obtain ⟨batches, hsome, -⟩ := generateBatches_eq_some drawn hlarge
        ((entries.zipIdx.map (assignment numWorkers txSize)).filter fun a => a.workerId = id)
      exact ⟨batches, (hgenerate id).trans hsome⟩
    choose batches hbatches using hex
    exact (hperm batches fun id _ => hbatches id).nodup_iff.mp
      (h batches fun id _ => hbatches id)
  · exact fun h batches hbatches => (hperm batches hbatches).nodup_iff.mpr h

/-- Batches of four transactions each. -/
theorem unique_ids_iff_sample :
    UniqueIds [⟨0, 2048⟩, ⟨1, 2048⟩, ⟨2, 2048⟩] 2 512 fun _ _ => ⟨0, 1, 4⟩ :=
  (unique_ids_iff [⟨0, 2048⟩, ⟨1, 2048⟩, ⟨2, 2048⟩] 2 512 (fun _ _ => ⟨0, 1, 4⟩)
    (by decide)).mpr (Or.inr (Or.inr (by decide)))

/-- The counters of a batch of four transactions begin at 4, and so do those of the next batch,
    of two. -/
theorem not_unique_ids : ¬ ∀ (entries : List ReplayEntry) (numWorkers txSize : ℕ)
    (drawn : ℕ → ℕ → Drawn), (∀ e ∈ entries, e.sizeBytes < 2 ^ 64) → 0 < numWorkers →
    35 ≤ txSize → UniqueIds entries numWorkers txSize drawn := by
  intro h
  have hids : (generateBatches [⟨0, 512⟩, ⟨1, 2048⟩, ⟨2, 1024⟩] 1 512 (fun _ _ => ⟨0, 1, 4⟩)
      0).map (·.flatMap txIds) =
      some [⟨0, 0⟩, ⟨0, 4⟩, ⟨0, 5⟩, ⟨0, 6⟩, ⟨0, 7⟩, ⟨0, 4⟩, ⟨0, 5⟩] := by decide +kernel
  obtain ⟨batches, hbatches, heq⟩ := Option.map_eq_some_iff.mp hids
  have hnodup := h [⟨0, 512⟩, ⟨1, 2048⟩, ⟨2, 1024⟩] 1 512 (fun _ _ => ⟨0, 1, 4⟩) (by decide)
    Nat.one_pos (by decide) (fun _ => batches) fun id hid => by
      obtain rfl : id = 0 := by omega
      exact hbatches
  rw [List.range_one, List.flatMap_singleton, heq] at hnodup
  exact absurd hnodup (by decide)

end DagBft.Replay
