/-
  The committee (`config/src/lib.rs`): authorities with their stake, and the two
  thresholds.

  Stakes and thresholds are `u32` and are computed here as the release build does,
  modulo `2 ^ 32`. `quorumThreshold_eq` and `validityThreshold_eq` give the values
  without the wrap-around, and `stakeOf_inter` is the intersection argument the whole
  protocol rests on: two sets of authorities whose stakes add up to more than the
  total have an authority in common. `thresholds_intersect` puts the two together.
-/
import Mathlib
import DagBft.Lib.OrdMap

namespace DagBft

/-- `u32` arithmetic of the release build. -/
def u32 (n : ℕ) : ℕ := n % 2 ^ 32

theorem u32_lt (n : ℕ) : u32 n < 2 ^ 32 := Nat.mod_lt n (by decide)

theorem u32_eq {n : ℕ} (h : n < 2 ^ 32) : u32 n = n := Nat.mod_eq_of_lt h

/-- `Iterator::sum` on `u32`. -/
def sumU32 (l : List ℕ) : ℕ := l.foldl (fun a b => u32 (a + b)) 0

/-- The sum with wrap-around. -/
theorem foldl_u32 (l : List ℕ) {a : ℕ} (ha : a < 2 ^ 32) :
    l.foldl (fun a b => u32 (a + b)) a = u32 (a + l.sum) := by
  induction l generalizing a with
  | nil => exact (u32_eq ha).symm
  | cons x l ih =>
      rw [List.foldl_cons, ih (u32_lt _), List.sum_cons]
      unfold u32
      rw [Nat.mod_add_mod, Nat.add_assoc]

theorem sumU32_eq_mod (l : List ℕ) : sumU32 l = u32 l.sum := by
  unfold sumU32
  rw [foldl_u32 l (by decide), Nat.zero_add]

theorem sumU32_eq {l : List ℕ} (h : l.sum < 2 ^ 32) : sumU32 l = l.sum := by
  rw [sumU32_eq_mod, u32_eq h]

/-- What the modelled code reads of an authority: its voting power and the ids of its
    workers. -/
structure Authority where
  stake : ℕ
  workers : List ℕ
deriving DecidableEq, Repr

/-- The committee. -/
structure Committee (PublicKey : Type) [LinearOrder PublicKey] where
  authorities : OrdMap PublicKey Authority

namespace Committee

/-- The names of three authorities, and of four. -/
theorem sorted_three : [0, 1, 2].Pairwise (· < ·) := by decide

theorem sorted_four : [0, 1, 2, 3].Pairwise (· < ·) := by decide

variable {PublicKey : Type} [LinearOrder PublicKey]

/-- The number of authorities. -/
def size (c : Committee PublicKey) : ℕ := c.authorities.entries.length

/-- `self.authorities.keys()`. -/
def keys (c : Committee PublicKey) : List PublicKey := c.authorities.keys

/-- The stake of a specific authority. -/
def stake (c : Committee PublicKey) (name : PublicKey) : ℕ :=
  (c.authorities.get name).elim 0 Authority.stake

/-- Whether `worker(name, id)` finds an address. -/
def hasWorker (c : Committee PublicKey) (name : PublicKey) (id : ℕ) : Bool :=
  (c.authorities.get name).elim false fun a => a.workers.contains id

/-- The sum of all stakes, as the thresholds compute it. -/
def totalVotes (c : Committee PublicKey) : ℕ :=
  sumU32 (c.authorities.entries.map fun x => x.2.stake)

/-- The stake required to reach a quorum (2f+1). -/
def quorumThreshold (c : Committee PublicKey) : ℕ := u32 (2 * c.totalVotes) / 3 + 1

/-- The stake required to reach availability (f+1). -/
def validityThreshold (c : Committee PublicKey) : ℕ := u32 (c.totalVotes + 2) / 3

/-! ## The thresholds without wrap-around -/

/-- The sum of all stakes over the natural numbers. -/
def total (c : Committee PublicKey) : ℕ := (c.authorities.entries.map fun x => x.2.stake).sum

theorem totalVotes_eq {c : Committee PublicKey} (h : c.total < 2 ^ 32) :
    c.totalVotes = c.total := sumU32_eq h

theorem quorumThreshold_eq {c : Committee PublicKey} (h : 2 * c.total < 2 ^ 32) :
    c.quorumThreshold = 2 * c.total / 3 + 1 := by
  unfold quorumThreshold
  rw [totalVotes_eq (by omega), u32_eq h]

theorem validityThreshold_eq {c : Committee PublicKey} (h : c.total + 2 < 2 ^ 32) :
    c.validityThreshold = (c.total + 2) / 3 := by
  unfold validityThreshold
  rw [totalVotes_eq (by omega), u32_eq h]

theorem stake_of_mem {c : Committee PublicKey} {x : PublicKey × Authority}
    (hx : x ∈ c.authorities.entries) : c.stake x.1 = x.2.stake := by
  simp [stake, OrdMap.get_of_mem hx]

theorem stake_of_notMem {c : Committee PublicKey} {name : PublicKey} (h : name ∉ c.keys) :
    c.stake name = 0 := by
  simp [stake, OrdMap.get_of_notMem h]

/-! ## Stakes of sets of authorities -/

/-- The stake held by a set of authorities. -/
def stakeOf (c : Committee PublicKey) (s : Finset PublicKey) : ℕ := ∑ a ∈ s, c.stake a

theorem total_eq_stakeOf (c : Committee PublicKey) : c.total = c.stakeOf c.keys.toFinset := by
  unfold stakeOf total keys
  rw [List.sum_toFinset _ c.authorities.nodup_keys, OrdMap.keys, List.map_map]
  congr 1
  refine List.map_congr_left fun x hx => ?_
  simp [stake_of_mem hx]

theorem stakeOf_mono {c : Committee PublicKey} {s t : Finset PublicKey} (h : s ⊆ t) :
    c.stakeOf s ≤ c.stakeOf t :=
  Finset.sum_le_sum_of_subset h

theorem stakeOf_le_total (c : Committee PublicKey) (s : Finset PublicKey) :
    c.stakeOf s ≤ c.total := by
  have hsplit : c.stakeOf s = c.stakeOf (s.filter (· ∈ c.keys)) := by
    unfold stakeOf
    refine (Finset.sum_subset (Finset.filter_subset _ _) ?_).symm
    intro a ha hna
    refine stake_of_notMem fun hk => hna ?_
    exact Finset.mem_filter.mpr ⟨ha, hk⟩
  rw [hsplit, total_eq_stakeOf]
  refine stakeOf_mono fun a ha => ?_
  exact List.mem_toFinset.mpr (Finset.mem_filter.mp ha).2

/-- Two sets that hold more than the total between them share an authority. -/
theorem stakeOf_inter {c : Committee PublicKey} {s t : Finset PublicKey}
    (h : c.total < c.stakeOf s + c.stakeOf t) : ∃ a, a ∈ s ∧ a ∈ t := by
  by_contra hne
  push Not at hne
  have hdisj : Disjoint s t := Finset.disjoint_left.mpr hne
  have hu : c.stakeOf (s ∪ t) = c.stakeOf s + c.stakeOf t := Finset.sum_union hdisj
  have := c.stakeOf_le_total (s ∪ t)
  omega

/-- What two sets share of their stakes. -/
theorem stakeOf_le_inter {c : Committee PublicKey} (s t : Finset PublicKey) :
    c.stakeOf s + c.stakeOf t ≤ c.total + c.stakeOf (s ∩ t) := by
  have hunion : c.stakeOf (s ∪ t) + c.stakeOf (s ∩ t) = c.stakeOf s + c.stakeOf t :=
    Finset.sum_union_inter
  have := c.stakeOf_le_total (s ∪ t)
  omega

/-! ## Quorums and availability -/

section Thresholds

variable {c : Committee PublicKey}

theorem quorumThreshold_eq_sub (hpos : 1 ≤ c.total) (h : c.total < 2 ^ 31) :
    c.quorumThreshold = c.total - (c.total - 1) / 3 := by
  rw [quorumThreshold_eq (by omega)]
  omega

theorem validityThreshold_eq_succ (hpos : 1 ≤ c.total) (h : c.total < 2 ^ 31) :
    c.validityThreshold = (c.total - 1) / 3 + 1 := by
  rw [validityThreshold_eq (by omega)]
  omega

/-- The sums that `Iterator::sum` goes through. -/
theorem sum_take_le_total (c : Committee PublicKey) (k : ℕ) :
    ((c.authorities.entries.map fun x => x.2.stake).take k).sum ≤ c.total :=
  (List.take_sublist k _).sum_le_sum fun _ _ => Nat.zero_le _

/-- The weights that an aggregator adds up are those of different authors. -/
theorem sum_stake_le_total (c : Committee PublicKey) {names : List PublicKey}
    (hnodup : names.Nodup) : (names.map c.stake).sum ≤ c.total := by
  rw [← List.sum_toFinset _ hnodup]
  exact c.stakeOf_le_total names.toFinset

/-- What a quorum holds beyond a minority reaches availability. -/
theorem validityThreshold_le_inter {s honest byzantine : Finset PublicKey} (h : c.total < 2 ^ 31)
    (hminority : 3 * c.stakeOf byzantine < c.total) (hs : c.quorumThreshold ≤ c.stakeOf s)
    (hsub : s \ honest ⊆ byzantine) : c.validityThreshold ≤ c.stakeOf (s ∩ honest) := by
  have hsplit : c.stakeOf s = c.stakeOf (s ∩ honest) + c.stakeOf (s \ honest) := by
    unfold stakeOf
    rw [← Finset.sum_union (Finset.disjoint_sdiff_inter s honest).symm, Finset.union_comm,
      Finset.sdiff_union_inter]
  have hle : c.stakeOf (s \ honest) ≤ c.stakeOf byzantine := stakeOf_mono hsub
  rw [quorumThreshold_eq (by omega)] at hs
  rw [validityThreshold_eq (by omega)]
  omega

/-- The thresholds are those of the comments, are computed without wrap-around, and do what
    they are for: quorums share more than `f`, and a quorum meets every set that is available. -/
theorem thresholds_intersect (c : Committee PublicKey) (hpos : 1 ≤ c.total)
    (h : c.total < 2 ^ 31) :
    c.quorumThreshold = c.total - (c.total - 1) / 3 ∧
    c.validityThreshold = (c.total - 1) / 3 + 1 ∧
    ((∀ k, ((c.authorities.entries.map fun x => x.2.stake).take k).sum < 2 ^ 32) ∧
      2 * c.totalVotes < 2 ^ 32 ∧ c.totalVotes + 2 < 2 ^ 32 ∧
      ∀ names : List PublicKey, names.Nodup → (names.map c.stake).sum < 2 ^ 32) ∧
    (∀ s t : Finset PublicKey, c.quorumThreshold ≤ c.stakeOf s →
      c.quorumThreshold ≤ c.stakeOf t → (c.total - 1) / 3 < c.stakeOf (s ∩ t)) ∧
    ∀ s t : Finset PublicKey, c.quorumThreshold ≤ c.stakeOf s →
      c.validityThreshold ≤ c.stakeOf t → ∃ a, a ∈ s ∧ a ∈ t := by
  have hquorum := quorumThreshold_eq_sub hpos h
  have hvalidity := validityThreshold_eq_succ hpos h
  have hvotes : c.totalVotes = c.total := totalVotes_eq (by omega)
  refine ⟨hquorum, hvalidity, ⟨fun k => ?_, ?_, ?_, fun names hnodup => ?_⟩,
    fun s t hs ht => ?_, fun s t hs ht => ?_⟩
  · have := c.sum_take_le_total k
    omega
  · omega
  · omega
  · have := c.sum_stake_le_total hnodup
    omega
  · have := stakeOf_le_inter (c := c) s t
    omega
  · have hlt : c.total < c.stakeOf s + c.stakeOf t := by omega
    exact stakeOf_inter hlt

/-- Four authorities with different stakes. -/
def fourStakes : Committee ℕ :=
  ⟨⟨[(0, ⟨1, []⟩), (1, ⟨2, []⟩), (2, ⟨3, []⟩), (3, ⟨5, []⟩)], by decide⟩⟩

theorem thresholds_intersect_sample :
    fourStakes.quorumThreshold = 8 ∧ fourStakes.validityThreshold = 4 ∧
    ((∀ k, ((fourStakes.authorities.entries.map fun x => x.2.stake).take k).sum < 2 ^ 32) ∧
      2 * fourStakes.totalVotes < 2 ^ 32 ∧ fourStakes.totalVotes + 2 < 2 ^ 32 ∧
      ∀ names : List ℕ, names.Nodup → (names.map fourStakes.stake).sum < 2 ^ 32) ∧
    (∀ s t : Finset ℕ, fourStakes.quorumThreshold ≤ fourStakes.stakeOf s →
      fourStakes.quorumThreshold ≤ fourStakes.stakeOf t → 3 < fourStakes.stakeOf (s ∩ t)) ∧
    ∀ s t : Finset ℕ, fourStakes.quorumThreshold ≤ fourStakes.stakeOf s →
      fourStakes.validityThreshold ≤ fourStakes.stakeOf t → ∃ a, a ∈ s ∧ a ∈ t :=
  thresholds_intersect fourStakes (by decide) (by decide)

end Thresholds

end Committee

end DagBft
