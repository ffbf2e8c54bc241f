/-
  The account counts of a header, from the `Processor` of a worker over the `Proposer` to
  `Core`.

  `sourceCount` is what they are meant to be: how many transactions of the payload have an
  account as their source. `counts_exact_iff` says when the counts of a header and those that
  `Core` computes to compare are exact.
-/
import DagBft.Primary.Acceptance
import DagBft.Worker.Processor

namespace DagBft.Proposer

open DagBft.Core DagBft.Worker

variable {PublicKey Digest Signature : Type} [LinearOrder PublicKey] [LinearOrder Digest]

/-! ## Counting over batches -/

/-- The transactions of these batches that satisfy `P`. -/
def countIn (batchOf : Digest → List Bytes) (digests : List Digest) (P : Bytes → Bool) : ℕ :=
  (digests.map fun d => (batchOf d).countP P).sum

/-- How many transactions of a payload have this account as their source. -/
def sourceCount (batchOf : Digest → List Bytes) (payload : OrdMap Digest ℕ) (account : ℕ) : ℕ :=
  countIn batchOf payload.keys fun tx => sourceAccount tx = some account

/-- The counts are those of the transactions, for every account. -/
def ExactCounts (batchOf : Digest → List Bytes) (payload : OrdMap Digest ℕ)
    (counts : OrdMap ℕ ℕ) : Prop :=
  ∀ account, countOf counts account = sourceCount batchOf payload account

/-- What the worker reports with a digest. -/
def reportedCounts (batchOf : Digest → List Bytes) (d : Digest) : OrdMap ℕ ℕ :=
  accountCounts false (some (.batch (batchOf d)))

variable {batchOf : Digest → List Bytes} {digests : List Digest} {payload : OrdMap Digest ℕ}

omit [LinearOrder Digest] in
theorem countIn_pos {P : Bytes → Bool} {d : Digest} {tx : Bytes} (hd : d ∈ digests)
    (htx : tx ∈ batchOf d) (hP : P tx = true) : 0 < countIn batchOf digests P := by
  have hpos : 0 < (batchOf d).countP P := List.countP_pos_iff.mpr ⟨tx, htx, hP⟩
  exact hpos.trans_le (List.single_le_sum (fun _ _ => Nat.zero_le _) _
    (List.mem_map_of_mem hd))

omit [LinearOrder Digest] in
theorem countIn_congr {P Q : Bytes → Bool} (h : ∀ d ∈ digests, ∀ tx ∈ batchOf d, P tx = Q tx) :
    countIn batchOf digests P = countIn batchOf digests Q := by
  unfold countIn
  congr 1
  refine List.map_congr_left fun d hd => ?_
  exact List.countP_congr fun tx htx => by rw [h d hd tx htx]

/-- Sums of counts, on `u16`. -/
theorem countOf_foldl_addCounts (l : List (OrdMap ℕ ℕ)) (account : ℕ) :
    countOf (l.foldl addCounts ∅) account =
      (l.map fun counts => countOf counts account).sum % 2 ^ 16 := by
  unfold countOf
  rw [get_foldl_addCounts]
  split
  · rfl
  · rename_i hnone
    have hzero : (l.map fun counts => (counts.get account).getD 0).sum = 0 := by
      rw [List.sum_eq_zero_iff]
      intro n hn
      obtain ⟨counts, hcounts, rfl⟩ := List.mem_map.mp hn
      rw [OrdMap.get_of_notMem fun hmem => hnone ⟨counts, hcounts, hmem⟩]
      rfl
    rw [hzero]
    rfl

theorem sum_mod_map {α : Type} (l : List α) (f : α → ℕ) (m : ℕ) :
    (l.map fun x => f x % m).sum % m = (l.map f).sum % m := by
  induction l with
  | nil => rfl
  | cons x l ih =>
      rw [List.map_cons, List.map_cons, List.sum_cons, List.sum_cons, Nat.add_mod, ih,
        Nat.mod_mod, ← Nat.add_mod]

omit [LinearOrder Digest] in
/-- The sum of what is reported with some digests counts the transactions by the lower bits
    of their source. -/
theorem sum_reportedCounts (batchOf : Digest → List Bytes) (digests : List Digest) (account : ℕ) :
    (digests.map fun d => countOf (reportedCounts batchOf d) account).sum % 2 ^ 16 =
      countIn batchOf digests (fun tx => accountKey tx = some account) % 2 ^ 16 := by
  unfold countIn
  rw [← sum_mod_map digests fun d => (batchOf d).countP fun tx => accountKey tx = some account]
  congr 2
  exact List.map_congr_left fun d _ => getD_accountCounts (batchOf d) account

/-! ## The counts of the payload -/

/-- The sources fit the narrow types of the counts: no account of `2 ^ 32` or more, and no
    account more than `2 ^ 16 - 1` times. -/
def FitsNarrow (batchOf : Digest → List Bytes) (payload : OrdMap Digest ℕ) : Prop :=
  (∀ d ∈ payload.keys, ∀ tx ∈ batchOf d, ∀ source ∈ sourceAccount tx, source < 2 ^ 32) ∧
    ∀ account, sourceCount batchOf payload account < 2 ^ 16

/-- The counts that `Core` adds up are exact if the sources fit. -/
theorem exactCounts_payload_iff {counts : OrdMap ℕ ℕ}
    (h : counts = (payload.entries.map fun x => reportedCounts batchOf x.1).foldl addCounts ∅) :
    ExactCounts batchOf payload counts ↔ FitsNarrow batchOf payload := by
  have hcounts : ∀ account, countOf counts account =
      countIn batchOf payload.keys (fun tx => accountKey tx = some account) % 2 ^ 16 := by
    intro account
    rw [h, countOf_foldl_addCounts, ← sum_reportedCounts, OrdMap.keys, List.map_map,
      List.map_map]
    rfl
  constructor
  · intro hexact
    refine ⟨fun d hd tx htx source hsource => ?_, fun account => ?_⟩
    · -- a large account has no count
      by_contra hlarge
      have hpos : 0 < sourceCount batchOf payload source :=
        countIn_pos hd htx (decide_eq_true hsource)
      have hnone : countIn batchOf payload.keys (fun tx => accountKey tx = some source) = 0 := by
        unfold countIn
        rw [List.sum_eq_zero_iff]
        intro n hn
        obtain ⟨d', -, rfl⟩ := List.mem_map.mp hn
        rw [List.countP_eq_zero]
        intro tx' _ hkey
        exact hlarge (accountKey_lt (of_decide_eq_true hkey))
      have hzero := hexact source
      rw [hcounts, hnone, Nat.zero_mod] at hzero
      omega
    · rw [← hexact account, hcounts]
      exact Nat.mod_lt _ (Nat.two_pow_pos 16)
  · rintro ⟨hsmall, hfew⟩ account
    have hsame : countIn batchOf payload.keys (fun tx => accountKey tx = some account) =
        sourceCount batchOf payload account :=
      countIn_congr fun d hd tx htx => by rw [accountKey_eq (hsmall d hd tx htx)]
    rw [hcounts, hsame, Nat.mod_eq_of_lt (hfew account)]

variable [AsBytes PublicKey] [AsBytes Digest] [Sha512 Digest]
  [Inhabited PublicKey] [Inhabited Digest] [Inhabited Signature]
  [Ed25519 PublicKey Digest Signature]

/-- The counts of the header, and those that `Core` compares them with, are exact if the
    sources of the payload fit and digests that are reported again add nothing. -/
theorem counts_exact_iff (p : Params PublicKey)
    (known : Certificate PublicKey Digest Signature → Prop) (batchOf : Digest → List Bytes)
    (s : State Digest) (store : Store PublicKey Digest Signature) (now : ℕ)
    (hrun : Run p known (reportedCounts batchOf) s)
    (hstored : HasCounts store (reportedCounts batchOf) (newHeader Signature p now s)) :
    (ExactCounts batchOf (newHeader Signature p now s).payload
        (newHeader Signature p now s).accountCounts ∧
      ExactCounts batchOf (newHeader Signature p now s).payload
        (expectedCounts store (newHeader Signature p now s))) ↔
    FitsNarrow batchOf (newHeader Signature p now s).payload ∧
      RepeatsVanish (reportedCounts batchOf) s.digests := by
  have hexpected := exactCounts_payload_iff (expectedCounts_eq hstored)
  have hheader : (newHeader Signature p now s).accountCounts =
      (s.digests.map fun x => reportedCounts batchOf x.1).foldl addCounts ∅ :=
    counts_of_run hrun
  have hrepeats := counts_eq_iff (reportedCounts batchOf) s.digests
  rw [← hheader] at hrepeats
  have hsame : expectedCounts store (newHeader Signature p now s) =
      ((collectPayload s.digests).entries.map fun x => reportedCounts batchOf x.1).foldl
        addCounts ∅ := expectedCounts_eq hstored
  rw [← hsame] at hrepeats
  constructor
  · rintro ⟨hexact, hexact'⟩
    refine ⟨hexpected.mp hexact', fun account => ?_⟩
    have hequal : countOf (newHeader Signature p now s).accountCounts account =
        countOf (expectedCounts store (newHeader Signature p now s)) account := by
      rw [hexact account, hexact' account]
    rw [hheader, hsame, countOf_foldl_addCounts, countOf_foldl_addCounts, List.map_map,
      List.map_map] at hequal
    have hperm := (perm_keys_collectPayload s.digests).map fun d =>
      countOf (reportedCounts batchOf d) account
    rw [← hperm.sum_eq, OrdMap.keys, List.map_map]
    exact hequal
  · rintro ⟨hfits, hvanish⟩
    have hequal := hrepeats.mpr hvanish
    exact ⟨hequal ▸ hexpected.mpr hfits, hexpected.mpr hfits⟩

/-! ## Two accounts with the same lower bits -/

section Sample

open Toy AcceptanceSample

namespace CountSample

/-- A transaction whose source is given in 8 bytes. -/
def transaction (source : Bytes) : Bytes := List.replicate 10 0 ++ source ++ List.replicate 17 0

/-- Accounts 1 and 2. -/
def small (_ : ℕ) : List Bytes :=
  [transaction [0, 0, 0, 0, 0, 0, 0, 1], transaction [0, 0, 0, 0, 0, 0, 0, 2]]

/-- Accounts 1 and `2 ^ 32 + 1`. -/
def large (_ : ℕ) : List Bytes :=
  [transaction [0, 0, 0, 0, 0, 0, 0, 1], transaction [0, 0, 0, 1, 0, 0, 0, 1]]

/-- The worker reports batch 7. -/
def oneBatch (batchOf : ℕ → List Bytes) : State ℕ :=
  step proposer (State.initial Unit proposer) false (.ourBatch 7 0 (reportedCounts batchOf 7) 0)

def storeOf (batchOf : ℕ → List Bytes) : Store ℕ ℕ Unit
  | .payload d _ => some (.accountCounts (reportedCounts batchOf d))
  | .digest _ => none

theorem run_oneBatch (batchOf : ℕ → List Bytes) :
    Run proposer IsGenesis (reportedCounts batchOf) (oneBatch batchOf) :=
  Run.step Run.initial false (.ourBatch 7 0 (reportedCounts batchOf 7) 0) rfl

end CountSample

open CountSample

theorem counts_exact_iff_sample :
    (ExactCounts small (newHeader Unit proposer 0 (oneBatch small)).payload
        (newHeader Unit proposer 0 (oneBatch small)).accountCounts ∧
      ExactCounts small (newHeader Unit proposer 0 (oneBatch small)).payload
        (expectedCounts (storeOf small) (newHeader Unit proposer 0 (oneBatch small)))) ↔
    FitsNarrow small (newHeader Unit proposer 0 (oneBatch small)).payload ∧
      RepeatsVanish (reportedCounts small) (oneBatch small).digests :=
  counts_exact_iff proposer IsGenesis small (oneBatch small) (storeOf small) 0
    (run_oneBatch small) fun _ _ => rfl

/-- The count of account 1 includes that of account `2 ^ 32 + 1`. -/
theorem counts_merged :
    ¬ ∀ (p : Params ℕ) (known : Certificate ℕ ℕ Unit → Prop) (batchOf : ℕ → List Bytes)
        (s : State ℕ) (store : Store ℕ ℕ Unit) (now : ℕ),
      Run p known (reportedCounts batchOf) s →
      HasCounts store (reportedCounts batchOf) (newHeader Unit p now s) →
      ExactCounts batchOf (newHeader Unit p now s).payload
        (newHeader Unit p now s).accountCounts := by
  intro h
  have hexact := h proposer IsGenesis large (oneBatch large) (storeOf large) 0
    (run_oneBatch large) (fun _ _ => rfl) 1
  exact absurd hexact (by decide +kernel)

end Sample

end DagBft.Proposer
