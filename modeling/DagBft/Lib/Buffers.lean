/-
  Buffers of values that name the key they stand under.
-/
import DagBft.Lib.AssocMap
import Mathlib.Tactic.Common

namespace AList

variable {K V : Type} [DecidableEq K]

/-! ## Buffers -/

/-- Every value stands under the key that it names. -/
def Keyed (key : V → K) (m : AList fun _ : K => V) : Prop := ∀ x ∈ m.entries, x.1 = key x.2

variable {key : V → K} {m m' : AList fun _ : K => V} {k : K} {v : V}

omit [DecidableEq K] in
theorem Keyed.empty : (∅ : AList fun _ : K => V).Keyed key := fun _ h => absurd h List.not_mem_nil

theorem Keyed.lookup_eq_some (h : m.Keyed key) :
    m.lookup k = some v ↔ v ∈ m.values ∧ key v = k := by
  rw [← mem_entries_iff]
  constructor
  · intro hmem
    exact ⟨List.mem_map.mpr ⟨_, hmem, rfl⟩, (h _ hmem).symm⟩
  · rintro ⟨hmem, rfl⟩
    obtain ⟨⟨k, v⟩, hin, rfl⟩ := List.mem_map.mp hmem
    have hk : k = key v := h _ hin
    rwa [← hk]

theorem Keyed.mem_iff (h : m.Keyed key) : k ∈ m ↔ ∃ v ∈ m.values, key v = k := by
  rw [← lookup_isSome, Option.isSome_iff_exists]
  exact exists_congr fun v => h.lookup_eq_some

theorem Keyed.insert (h : m.Keyed key) (v : V) : (m.insert (key v) v).Keyed key := by
  intro x hx
  rw [entries_insert, List.mem_cons] at hx
  rcases hx with rfl | hx
  · rfl
  · exact h x ((List.kerase_sublist _ _).subset hx)

theorem Keyed.erase (h : m.Keyed key) (k : K) : (m.erase k).Keyed key := fun x hx =>
  h x ((List.kerase_sublist _ _).subset hx)

theorem Keyed.union (h : m.Keyed key) (h' : m'.Keyed key) : (m ∪ m').Keyed key := by
  rintro ⟨k, v⟩ hx
  rw [mem_entries_iff, lookup_union_eq_some] at hx
  rcases hx with hx | ⟨-, hx⟩
  · exact h _ (mem_entries_iff.mpr hx)
  · exact h' _ (mem_entries_iff.mpr hx)

/-- Two buffers have no key in common if their values are different. -/
theorem Keyed.disjoint {W : Type} {f : V → W} (h : m.Keyed key) (h' : m'.Keyed key)
    (hnodup : ((m.values ++ m'.values).map f).Nodup)
    (hkey : ∀ v ∈ m.values, ∀ v' ∈ m'.values, key v = key v' → f v = f v') :
    ∀ k ∈ m, k ∉ m' := by
  intro k hk hk'
  obtain ⟨v, hv, rfl⟩ := h.mem_iff.mp hk
  obtain ⟨v', hv', heq⟩ := h'.mem_iff.mp hk'
  rw [List.map_append, List.nodup_append] at hnodup
  exact hnodup.2.2 _ (List.mem_map_of_mem hv) _ (List.mem_map_of_mem hv')
    (hkey v hv v' hv' heq.symm)

theorem values_insert (h : k ∉ m) : (m.insert k v).values = v :: m.values := by
  unfold values
  rw [entries_insert_of_notMem h]
  rfl

theorem values_erase (h : m.lookup k = some v) : m.values.Perm (v :: (m.erase k).values) := by
  obtain ⟨l, hl⟩ := m
  have hmem : (⟨k, v⟩ : Sigma fun _ : K => V) ∈ l := mem_entries_iff.mpr h
  obtain ⟨v', l₁, l₂, hnot, hsplit, herase⟩ :=
    List.exists_of_kerase (List.mem_keys_of_mem hmem)
  have hv : v' = v := by
    rw [hsplit, List.mem_append, List.mem_cons] at hmem
    rcases hmem with hmem | heq | hmem
    · exact absurd (List.mem_keys_of_mem hmem) hnot
    · cases heq
      rfl
    · rw [hsplit, List.NodupKeys, List.keys, List.map_append, List.nodup_append] at hl
      have hcons := hl.2.1
      rw [List.map_cons, List.nodup_cons] at hcons
      exact absurd (List.mem_map_of_mem (f := Sigma.fst) hmem) hcons.1
  subst hv
  show (l.map Sigma.snd).Perm (v' :: (List.kerase k l).map Sigma.snd)
  rw [herase, hsplit, List.map_append, List.map_append, List.map_cons]
  exact List.perm_middle

theorem values_union (h : ∀ k ∈ m, k ∉ m') : (m ∪ m').values = m.values ++ m'.values := by
  obtain ⟨l, hl⟩ := m
  unfold values
  rw [union_entries]
  have hkeys : ∀ k ∈ l.keys, k ∉ m'.entries.keys := h
  clear h
  dsimp only
  induction l with
  | nil => rfl
  | cons x l ih =>
      rw [List.keys_cons, List.forall_mem_cons] at hkeys
      rw [List.kunion_cons, List.kerase_of_notMem_keys hkeys.1, List.map_cons,
        ih (List.nodupKeys_cons.mp hl).2 hkeys.2]
      rfl

end AList
