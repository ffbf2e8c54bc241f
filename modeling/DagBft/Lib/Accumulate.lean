/-
  What a loop that updates the entries of a hash map leaves in each of them.

  `lookup_accumulate`: an entry is the fold of the values that come with its key, in any
  order. `bind_entries`: a loop over a map whose keys are known comes across the entries of
  these keys.
-/
import DagBft.Lib.HashMap
import Mathlib.Algebra.BigOperators.Group.Finset.Basic
import Mathlib.Data.Multiset.Bind

namespace DagBft.HashMap

variable {K V W β : Type} [DecidableEq K]

/-! ## The values of a key -/

/-- The values that come with a key. -/
def valuesAt (s : Multiset (K × V)) (k : K) : Multiset V :=
  (s.filter fun x => x.1 = k).map Prod.snd

@[simp]
theorem valuesAt_zero (k : K) : valuesAt (0 : Multiset (K × V)) k = 0 := rfl

theorem valuesAt_cons_self (s : Multiset (K × V)) (k : K) (v : V) :
    valuesAt ((k, v) ::ₘ s) k = v ::ₘ valuesAt s k := by
  unfold valuesAt
  rw [Multiset.filter_cons_of_pos (p := fun x : K × V => x.1 = k) s rfl, Multiset.map_cons]

theorem valuesAt_cons_of_ne (s : Multiset (K × V)) {k k' : K} (v : V) (h : k' ≠ k) :
    valuesAt ((k', v) ::ₘ s) k = valuesAt s k := by
  unfold valuesAt
  rw [Multiset.filter_cons_of_neg (p := fun x : K × V => x.1 = k) s h]

theorem valuesAt_eq_zero {s : Multiset (K × V)} {k : K} (h : ∀ x ∈ s, x.1 ≠ k) :
    valuesAt s k = 0 := by
  unfold valuesAt
  rw [Multiset.filter_eq_nil.mpr h]
  rfl

theorem valuesAt_add (s t : Multiset (K × V)) (k : K) :
    valuesAt (s + t) k = valuesAt s k + valuesAt t k := by
  unfold valuesAt
  rw [Multiset.filter_add, Multiset.map_add]

theorem valuesAt_map (s : Multiset (K × V)) (f : V → W) (k : K) :
    valuesAt (s.map fun x => (x.1, f x.2)) k = (valuesAt s k).map f := by
  unfold valuesAt
  rw [Multiset.filter_map, Multiset.map_map, Multiset.map_map]
  rfl

theorem valuesAt_bind {α : Type} (s : Multiset α) (g : α → Multiset (K × V)) (k : K) :
    valuesAt (s.bind g) k = s.bind fun x => valuesAt (g x) k := by
  unfold valuesAt
  rw [Multiset.filter_bind, Multiset.map_bind]

/-- A map has at most one value for a key. -/
theorem valuesAt_entries (m : HashMap K V) (k : K) :
    valuesAt (m.entries.map fun x => (x.1, x.2)) k = ((m.lookup k).toList : Multiset V) := by
  have hmap : valuesAt (m.entries.map fun x => (x.1, x.2)) k =
      (m.entries.filter fun x => x.1 = k).map Sigma.snd := by
    unfold valuesAt
    rw [Multiset.filter_map, Multiset.map_map]
    rfl
  rw [hmap]
  cases hk : m.lookup k with
  | none =>
      have hnone : (m.entries.filter fun x => x.1 = k) = 0 := by
        refine Multiset.filter_eq_nil.mpr fun x hx hxk => ?_
        obtain ⟨k', v⟩ := x
        obtain rfl : k' = k := hxk
        rw [Finmap.lookup_eq_some_iff.mpr hx] at hk
        cases hk
      rw [hnone]
      rfl
  | some v =>
      have hone : (m.entries.filter fun x => x.1 = k) = {⟨k, v⟩} := by
        rw [(m.nodup_entries.filter _).ext (Multiset.nodup_singleton _)]
        rintro ⟨k', v'⟩
        rw [Multiset.mem_filter, Multiset.mem_singleton]
        constructor
        · rintro ⟨hmem, rfl⟩
          rw [Finmap.lookup_eq_some_iff.mpr hmem] at hk
          rw [Option.some.inj hk]
        · intro h
          cases h
          exact ⟨Finmap.lookup_eq_some_iff.mp hk, rfl⟩
      rw [hone]
      rfl

/-! ## Loops -/

theorem accumulate_cons (f : W → V → W) [hf : RightCommutative f] (init : W) (x : K × V)
    (s : Multiset (K × V)) (m : HashMap K W) :
    accumulate f init (x ::ₘ s) m = accumulate f init s (update f init m x.1 x.2) :=
  haveI := update_comm (K := K) hf init
  Multiset.foldl_cons _ _ _ _

theorem lookup_accumulate (f : W → V → W) [RightCommutative f] (init : W)
    (s : Multiset (K × V)) (m : HashMap K W) (k : K) :
    (accumulate f init s m).lookup k =
      if (valuesAt s k).card = 0 then m.lookup k
      else some ((valuesAt s k).foldl f ((m.lookup k).getD init)) := by
  induction s using Multiset.induction_on generalizing m with
  | empty => rfl
  | cons x s ih =>
      obtain ⟨k', v⟩ := x
      rw [accumulate_cons, ih, lookup_update]
      by_cases hk : k' = k
      · subst hk
        rw [valuesAt_cons_self, if_pos rfl, Multiset.card_cons, if_neg (Nat.succ_ne_zero _),
          Multiset.foldl_cons, Option.getD_some]
        split
        · rename_i hzero
          rw [Multiset.card_eq_zero.mp hzero]
          rfl
        · rfl
      · rw [valuesAt_cons_of_ne s v hk, if_neg (Ne.symm hk)]

theorem foldl_accumulate (f : W → V → W) [RightCommutative f] (init : W)
    (ss : Multiset (Multiset (K × V))) (m : HashMap K W) :
    ss.foldl (fun (m : HashMap K W) s => accumulate f init s m) m =
      accumulate f init ss.join m := by
  induction ss using Multiset.induction_on generalizing m with
  | empty => rfl
  | cons s ss ih => rw [Multiset.foldl_cons, ih, Multiset.join_cons, accumulate_add]

theorem lookup_mapEntries (m : HashMap K V) (f : K → V → W) (k : K) :
    (mapEntries m f).lookup k = (m.lookup k).map (f k) := by
  ext w
  rw [Finmap.lookup_eq_some_iff, Option.map_eq_some_iff]
  unfold mapEntries
  rw [Multiset.mem_map]
  constructor
  · rintro ⟨⟨k', v⟩, hmem, h⟩
    cases h
    exact ⟨v, Finmap.lookup_eq_some_iff.mpr hmem, rfl⟩
  · rintro ⟨v, hv, rfl⟩
    exact ⟨⟨k, v⟩, Finmap.lookup_eq_some_iff.mp hv, rfl⟩

/-- A loop over the entries of a map, by their keys. -/
theorem bind_entries (m : HashMap K V) (g : (Sigma fun _ : K => V) → Multiset β) (s : Finset K)
    (hs : m.keys ⊆ s) :
    m.entries.bind g = ∑ k ∈ s, ((m.lookup k).elim 0 fun v => g ⟨k, v⟩) := by
  rw [← Finset.sum_subset hs fun k _ hk => ?_]
  · have hkeys : m.keys.val = m.entries.map Sigma.fst := rfl
    rw [Finset.sum, hkeys, Multiset.map_map]
    refine congrArg Multiset.sum (Multiset.map_congr rfl fun x hx => ?_)
    obtain ⟨k, v⟩ := x
    rw [Function.comp, Finmap.lookup_eq_some_iff.mpr hx]
    rfl
  · rw [Finmap.lookup_eq_none.mpr fun h => hk (Finmap.mem_keys.mpr h)]
    rfl

end DagBft.HashMap
