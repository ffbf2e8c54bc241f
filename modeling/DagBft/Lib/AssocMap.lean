/-
  What the models of `HashMap` need beyond `AList`: the list of values, the `retain` that
  keeps the entries satisfying a test, and maps of lists that are built entry by entry
  (`group`).
-/
import Mathlib.Data.List.AList

namespace AList

variable {K V : Type}

/-- The values, in the order of the entries. -/
def values (m : AList fun _ : K => V) : List V := m.entries.map Sigma.snd

/-- `HashMap::retain`. -/
def retain (p : K → V → Bool) (m : AList fun _ : K => V) : AList fun _ : K => V where
  entries := m.entries.filter fun e => p e.1 e.2
  nodupKeys := List.NodupKeys.sublist List.filter_sublist m.nodupKeys

/-- The values one by one, under the same keys. -/
def mapValues {W : Type} (f : V → W) (m : AList fun _ : K => V) : AList fun _ : K => W where
  entries := m.entries.map fun e => ⟨e.1, f e.2⟩
  nodupKeys := by
    have h := m.nodupKeys
    simpa [List.NodupKeys, List.keys, Function.comp_def] using h

theorem values_mapValues {W : Type} (f : V → W) (m : AList fun _ : K => V) :
    (m.mapValues f).values = m.values.map f := by
  simp [values, mapValues, Function.comp_def]

/-- A test on the keys does not see the values. -/
theorem retain_mapValues {W : Type} (f : V → W) (p : K → Bool) (m : AList fun _ : K => V) :
    (m.mapValues f).retain (fun k _ => p k) = (m.retain fun k _ => p k).mapValues f := by
  refine AList.ext ?_
  simp [retain, mapValues, List.filter_map, Function.comp_def]

variable [DecidableEq K]

theorem insert_mapValues {W : Type} (f : V → W) (m : AList fun _ : K => V) (k : K) (v : V) :
    (m.mapValues f).insert k (f v) = (m.insert k v).mapValues f := by
  refine AList.ext ?_
  simp only [entries_insert, mapValues, List.map_cons, List.kerase,
    List.eraseP_map, Function.comp_def]

theorem lookup_mapValues {W : Type} (f : V → W) (m : AList fun _ : K => V) (k : K) :
    (m.mapValues f).lookup k = (m.lookup k).map f := by
  obtain ⟨l, hl⟩ := m
  change List.dlookup k (l.map fun e => (⟨e.1, f e.2⟩ : Sigma fun _ : K => W)) =
    (List.dlookup k l).map f
  induction l with
  | nil => rfl
  | cons e l ih =>
      obtain ⟨k', v⟩ := e
      by_cases hk : k = k'
      · subst hk
        rw [List.map_cons, List.dlookup_cons_eq, List.dlookup_cons_eq]
        rfl
      · rw [List.map_cons, List.dlookup_cons_ne _ _ hk, List.dlookup_cons_ne _ _ hk,
          ih (List.nodupKeys_cons.mp hl).2]

theorem mem_entries_iff {m : AList fun _ : K => V} {k : K} {v : V} :
    (⟨k, v⟩ : Sigma fun _ : K => V) ∈ m.entries ↔ m.lookup k = some v :=
  mem_lookup_iff.symm

theorem mem_values_iff {m : AList fun _ : K => V} {v : V} :
    v ∈ m.values ↔ ∃ k, m.lookup k = some v := by
  simp only [values, List.mem_map, Sigma.exists, mem_entries_iff]
  constructor
  · rintro ⟨k, v', h, rfl⟩
    exact ⟨k, h⟩
  · rintro ⟨k, h⟩
    exact ⟨k, v, h, rfl⟩

theorem lookup_retain {p : K → V → Bool} {m : AList fun _ : K => V} {k : K} :
    (m.retain p).lookup k = (m.lookup k).filter (p k) := by
  ext v
  rw [Option.filter_eq_some_iff, ← mem_entries_iff, ← mem_entries_iff]
  simp [retain]

theorem lookup_insert_eq {m : AList fun _ : K => V} {k k' : K} {v : V} :
    (m.insert k v).lookup k' = if k' = k then some v else m.lookup k' := by
  split
  · rename_i h
    subst h
    exact lookup_insert m
  · rename_i h
    exact lookup_insert_ne h

theorem entries_eq_nil_iff {m : AList fun _ : K => V} :
    m.entries = [] ↔ ∀ k, m.lookup k = none := by
  constructor
  · intro h k
    rw [lookup_eq_none, mem_keys, keys, h]
    simp [List.keys]
  · intro h
    rw [List.eq_nil_iff_forall_not_mem]
    rintro ⟨k, v⟩ he
    rw [mem_entries_iff, h k] at he
    exact absurd he (by simp)

/-- Folding `insert` over a list with distinct keys: each key finds its own value. -/
theorem lookup_foldl_insert {α : Type} (key : α → K) (val : α → V) (l : List α)
    (h : (l.map key).Nodup) (m : AList fun _ : K => V) (k : K) :
    (l.foldl (fun m x => m.insert (key x) (val x)) m).lookup k =
      ((l.find? fun x => key x = k).map val).or (m.lookup k) := by
  induction l generalizing m with
  | nil => simp
  | cons x l ih =>
      rw [List.map_cons, List.nodup_cons] at h
      rw [List.foldl_cons, ih h.2, lookup_insert_eq, List.find?_cons]
      by_cases hk : key x = k
      · have hnone : l.find? (fun x => key x = k) = none := by
          rw [List.find?_eq_none]
          intro y hy
          simp only [decide_eq_true_eq]
          intro he
          exact h.1 (hk ▸ he ▸ List.mem_map_of_mem hy)
        simp [hnone, hk]
      · simp [hk, Ne.symm hk]

/-! ## Maps of lists -/

/-- `entry(k).or_default().push(v)`. -/
def pushAt (m : AList fun _ : K => List V) (k : K) (v : V) : AList fun _ : K => List V :=
  m.insert k ((m.lookup k).getD [] ++ [v])

/-- The values of each key, in their order. -/
def group (l : List (K × V)) : AList fun _ : K => List V :=
  l.foldl (fun m x => m.pushAt x.1 x.2) ∅

theorem lookup_foldl_pushAt (l : List (K × V)) (m : AList fun _ : K => List V) (k : K) :
    ((l.foldl (fun m x => m.pushAt x.1 x.2) m).lookup k).getD [] =
        (m.lookup k).getD [] ++ (l.filter fun x => x.1 = k).map Prod.snd ∧
      (k ∈ l.foldl (fun m x => m.pushAt x.1 x.2) m ↔ k ∈ m ∨ k ∈ l.map Prod.fst) := by
  induction l generalizing m with
  | nil => simp
  | cons x l ih =>
      obtain ⟨hlook, hmem⟩ := ih (m.pushAt x.1 x.2)
      rw [List.foldl_cons, hlook, hmem]
      unfold pushAt
      refine ⟨?_, ?_⟩
      · rw [lookup_insert_eq]
        by_cases hk : k = x.1
        · subst hk
          simp
        · simp [hk, Ne.symm hk]
      · rw [mem_insert, List.map_cons, List.mem_cons, or_comm (a := k = x.1), or_assoc]

theorem lookup_group (l : List (K × V)) (k : K) :
    ((group l).lookup k).getD [] = (l.filter fun x => x.1 = k).map Prod.snd := by
  unfold group
  rw [(lookup_foldl_pushAt l ∅ k).1]
  rfl

theorem mem_group {l : List (K × V)} {k : K} : k ∈ group l ↔ k ∈ l.map Prod.fst := by
  unfold group
  rw [(lookup_foldl_pushAt l ∅ k).2, or_iff_right (notMem_empty k)]

end AList
