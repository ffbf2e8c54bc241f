/-
  Finite maps as strictly sorted association lists, the shape of a `BTreeMap`: the
  entries are listed by increasing key, so equal maps are equal lists.
-/
import Mathlib

namespace DagBft

/-- An element is found by its key when the keys are distinct. -/
theorem find?_key_of_mem {α K : Type} [DecidableEq K] {key : α → K} {l : List α} {x : α}
    (h : (l.map key).Nodup) (hx : x ∈ l) : l.find? (fun y => key y = key x) = some x := by
  induction l with
  | nil => simp at hx
  | cons y l ih =>
      rw [List.map_cons, List.nodup_cons] at h
      rcases List.mem_cons.mp hx with rfl | hx
      · simp
      · have hne : key y ≠ key x := by
          intro he
          exact h.1 (he ▸ List.mem_map_of_mem hx)
        simpa [List.find?_cons, hne] using ih h.2 hx

/-- Stated for the order, so that no definition carries a proof of it. -/
instance lawfulBEq_of_linearOrder {K : Type} [LinearOrder K] : LawfulBEq K := inferInstance

/-- A map whose entries are listed by strictly increasing key. -/
structure OrdMap (K V : Type) [LinearOrder K] where
  entries : List (K × V)
  sorted : (entries.map Prod.fst).Pairwise (· < ·)

namespace OrdMap

variable {K V : Type} [LinearOrder K]

@[ext]
theorem ext {m m' : OrdMap K V} (h : m.entries = m'.entries) : m = m' := by
  cases m
  cases m'
  congr

instance [DecidableEq V] : DecidableEq (OrdMap K V) := fun m m' =>
  decidable_of_iff (m.entries = m'.entries) ⟨ext, fun h => h ▸ rfl⟩

instance : EmptyCollection (OrdMap K V) := ⟨⟨[], List.Pairwise.nil⟩⟩

def keys (m : OrdMap K V) : List K := m.entries.map Prod.fst

def get (m : OrdMap K V) (k : K) : Option V := (m.entries.find? fun x => x.1 = k).map Prod.snd

@[simp]
theorem entries_empty : (∅ : OrdMap K V).entries = [] := rfl

theorem nodup_keys (m : OrdMap K V) : m.keys.Nodup := m.sorted.imp fun h => ne_of_lt h

theorem get_of_mem {m : OrdMap K V} {x : K × V} (hx : x ∈ m.entries) :
    m.get x.1 = some x.2 := by
  unfold get
  rw [find?_key_of_mem m.nodup_keys hx]
  rfl

theorem get_of_notMem {m : OrdMap K V} {k : K} (h : k ∉ m.keys) : m.get k = none := by
  have hnone : m.entries.find? (fun x => x.1 = k) = none := by
    rw [List.find?_eq_none]
    intro x hx
    simp only [decide_eq_true_eq]
    rintro rfl
    exact h (List.mem_map_of_mem hx)
  simp [get, hnone]

/-! ## Insertion -/

/-- Insert into the sorted list, replacing the value of an existing key. -/
def insertList (k : K) (v : V) : List (K × V) → List (K × V)
  | [] => [(k, v)]
  | x :: l => if k < x.1 then (k, v) :: x :: l
      else if k = x.1 then (k, v) :: l
      else x :: insertList k v l

theorem mem_keys_insertList {k k' : K} {v : V} {l : List (K × V)} :
    k' ∈ (insertList k v l).map Prod.fst ↔ k' = k ∨ k' ∈ l.map Prod.fst := by
  induction l with
  | nil => simp [insertList]
  | cons x l ih =>
      unfold insertList
      split
      · simp
      · split
        · rename_i heq
          subst heq
          simp
        · rw [List.map_cons, List.mem_cons, ih, List.map_cons, List.mem_cons]
          exact or_left_comm

theorem sorted_insertList {k : K} {v : V} {l : List (K × V)}
    (h : (l.map Prod.fst).Pairwise (· < ·)) :
    ((insertList k v l).map Prod.fst).Pairwise (· < ·) := by
  induction l with
  | nil => simp [insertList]
  | cons x l ih =>
      rw [List.map_cons, List.pairwise_cons] at h
      unfold insertList
      split
      · rename_i hlt
        rw [List.map_cons, List.pairwise_cons, List.map_cons, List.pairwise_cons]
        refine ⟨?_, h⟩
        intro y hy
        rcases List.mem_cons.mp hy with rfl | hy
        · exact hlt
        · exact hlt.trans (h.1 y hy)
      · split
        · rename_i heq
          subst heq
          rw [List.map_cons, List.pairwise_cons]
          exact h
        · rename_i hlt hne
          rw [List.map_cons, List.pairwise_cons]
          refine ⟨?_, ih h.2⟩
          intro y hy
          rcases mem_keys_insertList.mp hy with rfl | hy
          · exact lt_of_le_of_ne (not_lt.mp hlt) (Ne.symm hne)
          · exact h.1 y hy

def insert (m : OrdMap K V) (k : K) (v : V) : OrdMap K V :=
  ⟨insertList k v m.entries, sorted_insertList m.sorted⟩

theorem find?_insertList {k k' : K} {v : V} {l : List (K × V)} :
    (insertList k v l).find? (fun x => x.1 = k') =
      if k' = k then some (k, v) else l.find? fun x => x.1 = k' := by
  induction l with
  | nil =>
      by_cases hk : k' = k
      · simp [insertList, hk]
      · simp [insertList, hk, Ne.symm hk]
  | cons x l ih =>
      unfold insertList
      by_cases hlt : k < x.1
      · rw [if_pos hlt, List.find?_cons]
        by_cases hk : k' = k
        · simp [hk]
        · simp [hk, Ne.symm hk]
      · rw [if_neg hlt]
        by_cases heq : k = x.1
        · rw [if_pos heq, List.find?_cons, List.find?_cons]
          by_cases hk : k' = k
          · simp [hk]
          · have hx : ¬ x.1 = k' := fun h => hk (h.symm.trans heq.symm)
            simp [hk, Ne.symm hk, hx]
        · rw [if_neg heq, List.find?_cons, ih]
          by_cases hx : x.1 = k'
          · have hk : ¬ k' = k := fun h => heq (h.symm.trans hx.symm)
            simp [hx, hk]
          · simp [hx]

@[simp]
theorem get_empty (k : K) : (∅ : OrdMap K V).get k = none := rfl

theorem get_insert (m : OrdMap K V) (k k' : K) (v : V) :
    (m.insert k v).get k' = if k' = k then some v else m.get k' := by
  unfold get insert
  rw [find?_insertList]
  split <;> rfl

theorem mem_keys_insert {m : OrdMap K V} {k k' : K} {v : V} :
    k' ∈ (m.insert k v).keys ↔ k' = k ∨ k' ∈ m.keys := mem_keys_insertList

theorem get_eq_some_iff {m : OrdMap K V} {k : K} {v : V} :
    m.get k = some v ↔ (k, v) ∈ m.entries := by
  constructor
  · intro h
    simp only [get, Option.map_eq_some_iff] at h
    obtain ⟨x, hx, rfl⟩ := h
    have hk : x.1 = k := by simpa using List.find?_some hx
    rw [← hk]
    exact List.mem_of_find?_eq_some hx
  · exact get_of_mem

theorem isSome_get_iff {m : OrdMap K V} {k : K} : (m.get k).isSome = true ↔ k ∈ m.keys := by
  rw [Option.isSome_iff_exists]
  constructor
  · rintro ⟨v, hv⟩
    exact List.mem_map_of_mem (get_eq_some_iff.mp hv)
  · intro h
    obtain ⟨x, hx, rfl⟩ := List.mem_map.mp h
    exact ⟨x.2, get_of_mem hx⟩

/-- Maps with the same values are equal. -/
theorem ext_get {m m' : OrdMap K V} (h : ∀ k, m.get k = m'.get k) : m = m' := by
  have hnodup : ∀ m : OrdMap K V, m.entries.Nodup := fun m =>
    List.Pairwise.of_map Prod.fst (fun _ _ hne he => hne (congrArg Prod.fst he)) m.nodup_keys
  have hsorted : ∀ m : OrdMap K V, m.entries.Pairwise fun x y => x.1 < y.1 := fun m =>
    List.pairwise_map.mp m.sorted
  refine ext (List.Perm.eq_of_pairwise (fun x y _ _ h1 h2 => absurd (h1.trans h2) (lt_irrefl _))
    (hsorted m) (hsorted m') ?_)
  rw [List.perm_ext_iff_of_nodup (hnodup m) (hnodup m')]
  intro x
  rw [← get_eq_some_iff (k := x.1) (v := x.2), h, get_eq_some_iff]

end OrdMap

/-- A set listed in strictly increasing order, the shape of a `BTreeSet`. -/
structure OrdSet (K : Type) [LinearOrder K] where
  toList : List K
  sorted : toList.Pairwise (· < ·)

namespace OrdSet

variable {K : Type} [LinearOrder K]

@[ext]
theorem ext {s s' : OrdSet K} (h : s.toList = s'.toList) : s = s' := by
  cases s
  cases s'
  congr

instance : DecidableEq (OrdSet K) := fun s s' =>
  decidable_of_iff (s.toList = s'.toList) ⟨ext, fun h => h ▸ rfl⟩

instance : EmptyCollection (OrdSet K) := ⟨⟨[], List.Pairwise.nil⟩⟩

instance : Membership K (OrdSet K) := ⟨fun s k => k ∈ s.toList⟩

instance (k : K) (s : OrdSet K) : Decidable (k ∈ s) := inferInstanceAs (Decidable (k ∈ s.toList))

/-- `collect` into a `BTreeSet`. -/
def ofList (l : List K) : OrdSet K :=
  ⟨(l.foldr (fun k m => m.insert k ()) (∅ : OrdMap K Unit)).keys, OrdMap.sorted _⟩

theorem mem_ofList {k : K} {l : List K} : k ∈ (ofList l).toList ↔ k ∈ l := by
  show k ∈ (l.foldr (fun k m => m.insert k ()) (∅ : OrdMap K Unit)).keys ↔ k ∈ l
  induction l with
  | nil => exact Iff.rfl
  | cons x l ih =>
      rw [List.mem_cons, ← ih]
      exact OrdMap.mem_keys_insert

theorem nodup_toList (s : OrdSet K) : s.toList.Nodup := s.sorted.imp fun h => ne_of_lt h

theorem perm_ofList {l : List K} (h : l.Nodup) : (ofList l).toList.Perm l :=
  (List.perm_ext_iff_of_nodup (nodup_toList _) h).mpr fun _ => mem_ofList

theorem mem_def {k : K} {s : OrdSet K} : k ∈ s ↔ k ∈ s.toList := Iff.rfl

@[simp]
theorem toList_empty : (∅ : OrdSet K).toList = [] := rfl

@[simp]
theorem notMem_empty (k : K) : k ∉ (∅ : OrdSet K) := by simp [mem_def]

end OrdSet

end DagBft
