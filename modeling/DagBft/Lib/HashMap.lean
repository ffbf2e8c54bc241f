/-
  Hash maps whose order of iteration is not known: `Finmap` with what the models need
  beyond Mathlib. A loop over such a map is a fold of a function that commutes, and what
  is collected from it and sorted is `sorted`; neither depends on the order.

  `accumulate_comm`: updating one entry after the other commutes as soon as the updates
  of a single entry do.
-/
import Mathlib

namespace DagBft

abbrev HashMap (K V : Type) := Finmap fun _ : K => V

/-! ## Sorting what was collected in some order -/

/-- A multiset listed by a total order, as `sort_by` leaves it. -/
def sorted {α : Type} (r : α → α → Prop) [DecidableRel r] [IsTrans α r] [Std.Antisymm r]
    [Std.Total r] (s : Multiset α) : List α :=
  Quot.liftOn s (List.insertionSort r) fun _ _ h =>
    ((List.perm_insertionSort r _).trans
      (h.trans (List.perm_insertionSort r _).symm)).eq_of_pairwise'
        (r := r) (List.pairwise_insertionSort r _) (List.pairwise_insertionSort r _)

/-! Stated for the order, so that no definition carries a proof of them. -/

instance isTrans_le {α : Type} [LinearOrder α] : IsTrans α (· ≤ ·) := inferInstance

instance antisymm_le {α : Type} [LinearOrder α] : Std.Antisymm fun a b : α => a ≤ b :=
  inferInstance

theorem length_sorted {α : Type} (r : α → α → Prop) [DecidableRel r] [IsTrans α r]
    [Std.Antisymm r] [Std.Total r] (s : Multiset α) : (sorted r s).length = s.card :=
  Quot.induction_on s fun l => List.length_insertionSort r l

theorem mem_sorted {α : Type} {r : α → α → Prop} [DecidableRel r] [IsTrans α r]
    [Std.Antisymm r] [Std.Total r] {s : Multiset α} {a : α} : a ∈ sorted r s ↔ a ∈ s :=
  Quot.induction_on s fun _ => List.mem_insertionSort r

theorem nodup_sorted {α : Type} {r : α → α → Prop} [DecidableRel r] [IsTrans α r]
    [Std.Antisymm r] [Std.Total r] {s : Multiset α} (h : s.Nodup) : (sorted r s).Nodup := by
  induction s using Quot.inductionOn with
  | h l => exact (List.perm_insertionSort r l).nodup_iff.mpr (Multiset.coe_nodup.mp h)

/-- By decreasing weight, and by key where the weights are the same. -/
def Heavier {α β : Type} [LinearOrder α] [LinearOrder β] (weight : α → β) (a b : α) : Prop :=
  weight b < weight a ∨ weight a = weight b ∧ a ≤ b

section Heavier

variable {α β : Type} [LinearOrder α] [LinearOrder β] (weight : α → β)

instance : DecidableRel (Heavier weight) := fun a b =>
  inferInstanceAs (Decidable (weight b < weight a ∨ weight a = weight b ∧ a ≤ b))

instance : IsTrans α (Heavier weight) where
  trans a b c hab hbc := by
    unfold Heavier at *
    rcases hab with hab | ⟨hab, hle⟩
    · rcases hbc with hbc | ⟨hbc, -⟩
      · exact Or.inl (hbc.trans hab)
      · exact Or.inl (hbc ▸ hab)
    · rcases hbc with hbc | ⟨hbc, hle'⟩
      · exact Or.inl (hab ▸ hbc)
      · exact Or.inr ⟨hab.trans hbc, hle.trans hle'⟩

instance : Std.Antisymm (Heavier weight) where
  antisymm a b hab hba := by
    unfold Heavier at *
    rcases hab with hab | ⟨hab, hle⟩
    · rcases hba with hba | ⟨hba, -⟩
      · exact absurd (hab.trans hba) (lt_irrefl _)
      · exact absurd hab hba.ge.not_gt
    · rcases hba with hba | ⟨-, hle'⟩
      · exact absurd hba hab.ge.not_gt
      · exact le_antisymm hle hle'

instance : Std.Total (Heavier weight) where
  total a b := by
    unfold Heavier
    rcases lt_trichotomy (weight a) (weight b) with h | h | h
    · exact Or.inr (Or.inl h)
    · exact (le_total a b).imp (fun hle => Or.inr ⟨h, hle⟩) fun hle => Or.inr ⟨h.symm, hle⟩
    · exact Or.inl (Or.inl h)

end Heavier

namespace HashMap

variable {K V W : Type} [DecidableEq K]

/-! ## Entries -/

omit [DecidableEq K] in
theorem keys_map_snd (s : Multiset (Sigma fun _ : K => V)) (f : K → V → W) :
    (s.map fun x => (⟨x.1, f x.1 x.2⟩ : Sigma fun _ : K => W)).keys = s.keys := by
  unfold Multiset.keys
  rw [Multiset.map_map]
  rfl

/-- `HashMap::retain`, on the keys. -/
def retain (m : HashMap K V) (p : K → Prop) [DecidablePred p] : HashMap K V where
  entries := m.entries.filter fun x => p x.1
  nodupKeys := Multiset.nodup_keys.mp
    (Multiset.nodup_of_le (Multiset.map_le_map (Multiset.filter_le _ _))
      (Multiset.nodup_keys.mpr m.nodupKeys))

theorem lookup_retain (m : HashMap K V) (p : K → Prop) [DecidablePred p] (k : K) :
    (retain m p).lookup k = if p k then m.lookup k else none := by
  ext v
  rw [Finmap.lookup_eq_some_iff]
  unfold retain
  rw [Multiset.mem_filter, ← Finmap.lookup_eq_some_iff]
  split
  · rename_i h
    exact and_iff_left h
  · rename_i h
    simp [h]

/-- `HashMap::retain`, on keys and values. -/
def filter (m : HashMap K V) (p : K → V → Prop) [∀ k, DecidablePred (p k)] : HashMap K V where
  entries := m.entries.filter fun x => p x.1 x.2
  nodupKeys := Multiset.nodup_keys.mp
    (Multiset.nodup_of_le (Multiset.map_le_map (Multiset.filter_le _ _))
      (Multiset.nodup_keys.mpr m.nodupKeys))

theorem lookup_filter_eq_some {m : HashMap K V} {p : K → V → Prop} [∀ k, DecidablePred (p k)]
    {k : K} {v : V} : (filter m p).lookup k = some v ↔ m.lookup k = some v ∧ p k v := by
  rw [Finmap.lookup_eq_some_iff, Finmap.lookup_eq_some_iff]
  unfold filter
  rw [Multiset.mem_filter]

/-- Every value replaced. -/
def mapEntries (m : HashMap K V) (f : K → V → W) : HashMap K W where
  entries := m.entries.map fun x => ⟨x.1, f x.1 x.2⟩
  nodupKeys := Multiset.nodup_keys.mp
    ((keys_map_snd m.entries f).symm ▸ Multiset.nodup_keys.mpr m.nodupKeys)

theorem lookup_insert_eq (m : HashMap K V) (k k' : K) (v : V) :
    (m.insert k v).lookup k' = if k' = k then some v else m.lookup k' := by
  split
  · rename_i h
    rw [h, Finmap.lookup_insert]
  · rename_i h
    exact Finmap.lookup_insert_of_ne m h

/-! ## Updating entries -/

/-- `f` applied to the entry of a key, which is `init` where there is none. -/
def update (f : W → V → W) (init : W) (m : HashMap K W) (k : K) (v : V) : HashMap K W :=
  m.insert k (f ((m.lookup k).getD init) v)

theorem lookup_update (f : W → V → W) (init : W) (m : HashMap K W) (k k' : K) (v : V) :
    (update f init m k v).lookup k' =
      if k' = k then some (f ((m.lookup k).getD init) v) else m.lookup k' :=
  lookup_insert_eq _ _ _ _

theorem update_comm {f : W → V → W} (hf : RightCommutative f) (init : W) :
    RightCommutative fun (m : HashMap K W) (x : K × V) => update f init m x.1 x.2 where
  right_comm m := by
    rintro ⟨k₁, v₁⟩ ⟨k₂, v₂⟩
    refine Finmap.ext_lookup fun k => ?_
    simp only [lookup_update]
    by_cases h : k₁ = k₂
    · subst h
      split
      · simp only [if_true, Option.getD_some]
        rw [hf.right_comm]
      · rfl
    · simp only [if_neg h, if_neg (Ne.symm h)]
      by_cases h₁ : k = k₁
      · subst h₁
        rw [if_neg h, if_pos rfl, if_pos rfl]
      · rw [if_neg h₁, if_neg h₁]

/-- The loop that updates the entries of a sequence of keys. -/
def accumulate (f : W → V → W) [hf : RightCommutative f] (init : W) (s : Multiset (K × V))
    (m : HashMap K W) : HashMap K W :=
  haveI := update_comm (K := K) hf init
  s.foldl (fun m x => update f init m x.1 x.2) m

theorem accumulate_add (f : W → V → W) [hf : RightCommutative f] (init : W)
    (s t : Multiset (K × V)) (m : HashMap K W) :
    accumulate f init (s + t) m = accumulate f init t (accumulate f init s m) :=
  haveI := update_comm (K := K) hf init
  Multiset.foldl_add _ _ _ _

instance accumulate_comm (f : W → V → W) [RightCommutative f] (init : W) :
    RightCommutative fun (m : HashMap K W) (s : Multiset (K × V)) => accumulate f init s m where
  right_comm m s t := by
    rw [← accumulate_add, ← accumulate_add, add_comm]

end HashMap

end DagBft
