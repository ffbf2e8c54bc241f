/-
  Depth-first search with an explicit stack: pop a node, list it, push those of its
  successors that have not been seen. `succ x` gives the successors of `x` in the order
  they are tried, each with the key under which it is marked as seen.

  `dfs_isSome`: a fuel of one step for each node on the stack and for each key not yet
  seen is enough. `dfs_filter`: nodes that only lead to dropped nodes can be dropped
  before the search instead of after it. `dfs_congr`: the search only looks at the
  successors of the nodes it lists. `dfs_map`: it commutes with a renaming of the nodes.
  `dfs_fuel`: enough fuel is as good as more.
  `exists_mem_dfs_of_succ` and `nodup_dfs`: everything that can be reached is listed, once.
-/
import Mathlib.Data.List.Basic
import Mathlib.Data.Finset.Card
import Mathlib.Data.Finset.Basic

namespace DagBft

variable {α κ : Type} [DecidableEq κ]

/-- Push the successors that have not been seen, marking them as seen. -/
def dfsPush (succs : List (κ × α)) (stack : List α) (seen : List κ) : List α × List κ :=
  succs.foldl (fun acc p => if p.1 ∈ acc.2 then acc else (p.2 :: acc.1, p.1 :: acc.2))
    (stack, seen)

/-- The nodes in the order they are popped, `none` if the fuel runs out. -/
def dfs (succ : α → List (κ × α)) : ℕ → List α → List κ → Option (List α)
  | _, [], _ => some []
  | 0, _ :: _, _ => none
  | n + 1, x :: stack, seen =>
      (dfs succ n (dfsPush (succ x) stack seen).1 (dfsPush (succ x) stack seen).2).map (x :: ·)

@[simp]
theorem dfs_nil (succ : α → List (κ × α)) (n : ℕ) (seen : List κ) :
    dfs succ n [] seen = some [] := by
  cases n <;> rfl

theorem dfsPush_nil (stack : List α) (seen : List κ) : dfsPush [] stack seen = (stack, seen) := rfl

theorem dfsPush_cons (p : κ × α) (succs : List (κ × α)) (stack : List α) (seen : List κ) :
    dfsPush (p :: succs) stack seen =
      if p.1 ∈ seen then dfsPush succs stack seen
      else dfsPush succs (p.2 :: stack) (p.1 :: seen) := by
  unfold dfsPush
  rw [List.foldl_cons]
  split <;> rfl

theorem mem_dfsPush {succs : List (κ × α)} {stack : List α} {seen : List κ} {x : α}
    (h : x ∈ (dfsPush succs stack seen).1) : x ∈ stack ∨ ∃ k, (k, x) ∈ succs := by
  induction succs generalizing stack seen with
  | nil => exact Or.inl h
  | cons p succs ih =>
      rw [dfsPush_cons] at h
      split at h
      · rcases ih h with h | ⟨k, h⟩
        · exact Or.inl h
        · exact Or.inr ⟨k, List.mem_cons_of_mem _ h⟩
      · rcases ih h with h | ⟨k, h⟩
        · rcases List.mem_cons.mp h with rfl | h
          · exact Or.inr ⟨p.1, List.mem_cons_self⟩
          · exact Or.inl h
        · exact Or.inr ⟨k, List.mem_cons_of_mem _ h⟩

/-! ## Fuel -/

/-- Each push pays for itself: the stack grows by what leaves the unseen keys. -/
theorem dfsPush_card {succs : List (κ × α)} (stack : List α) (seen : List κ) {U : Finset κ}
    (hU : ∀ p ∈ succs, p.1 ∈ U) :
    (dfsPush succs stack seen).1.length + (U \ (dfsPush succs stack seen).2.toFinset).card ≤
      stack.length + (U \ seen.toFinset).card := by
  induction succs generalizing stack seen with
  | nil => exact le_refl _
  | cons p succs ih =>
      have hU' : ∀ q ∈ succs, q.1 ∈ U := fun q hq => hU q (List.mem_cons_of_mem _ hq)
      rw [dfsPush_cons]
      split
      · exact ih stack seen hU'
      · rename_i hp
        refine (ih _ _ hU').trans ?_
        have hmem : p.1 ∈ U \ seen.toFinset := by
          simp [hU p List.mem_cons_self, hp]
        have heq : U \ (p.1 :: seen).toFinset = (U \ seen.toFinset).erase p.1 := by
          ext k
          simp only [List.toFinset_cons, Finset.mem_sdiff, Finset.mem_insert, Finset.mem_erase,
            List.mem_toFinset]
          tauto
        have hpos : 0 < (U \ seen.toFinset).card := Finset.card_pos.mpr ⟨_, hmem⟩
        rw [heq, Finset.card_erase_of_mem hmem, List.length_cons]
        omega

/-- The search ends: with keys from `U` only, `stack.length` plus the number of unseen
    keys is enough fuel. `P` marks the nodes that can be reached. -/
theorem dfs_isSome {succ : α → List (κ × α)} {U : Finset κ} (P : α → Prop)
    (hP : ∀ x, P x → ∀ p ∈ succ x, p.1 ∈ U ∧ P p.2) :
    ∀ (n : ℕ) (stack : List α) (seen : List κ), (∀ x ∈ stack, P x) →
      stack.length + (U \ seen.toFinset).card ≤ n → (dfs succ n stack seen).isSome := by
  intro n
  induction n with
  | zero =>
      intro stack seen _ hn
      have : stack = [] := List.eq_nil_of_length_eq_zero (by omega)
      simp [this]
  | succ n ih =>
      intro stack seen hs hn
      cases stack with
      | nil => simp
      | cons x stack =>
          have hx := hP x (hs x List.mem_cons_self)
          have hcard := dfsPush_card stack seen fun p hp => (hx p hp).1
          rw [List.length_cons] at hn
          simp only [dfs, Option.isSome_map]
          refine ih _ _ ?_ (by omega)
          intro y hy
          rcases mem_dfsPush hy with hy | ⟨k, hy⟩
          · exact hs y (List.mem_cons_of_mem _ hy)
          · exact (hx _ hy).2

/-! ## What is listed -/

/-- A property closed under successors holds of every node that is listed. -/
theorem forall_mem_dfs {succ : α → List (κ × α)} (P : α → Prop)
    (hP : ∀ x, P x → ∀ p ∈ succ x, P p.2) :
    ∀ (n : ℕ) (stack : List α) (seen : List κ) (out : List α), (∀ x ∈ stack, P x) →
      dfs succ n stack seen = some out → ∀ x ∈ out, P x := by
  intro n
  induction n with
  | zero =>
      intro stack seen out _ h
      cases stack with
      | nil =>
          obtain rfl : [] = out := by simpa using h
          simp
      | cons x stack => simp [dfs] at h
  | succ n ih =>
      intro stack seen out hs h
      cases stack with
      | nil =>
          obtain rfl : [] = out := by simpa using h
          simp
      | cons x stack =>
          simp only [dfs, Option.map_eq_some_iff] at h
          obtain ⟨rest, hrest, rfl⟩ := h
          have hx := hs x List.mem_cons_self
          intro y hy
          rcases List.mem_cons.mp hy with rfl | hy
          · exact hx
          · refine ih _ _ rest ?_ hrest y hy
            intro z hz
            rcases mem_dfsPush hz with hz | ⟨k, hz⟩
            · exact hs z (List.mem_cons_of_mem _ hz)
            · exact hP x hx _ hz

theorem mem_dfs_head {succ : α → List (κ × α)} {n : ℕ} {x : α} {stack : List α} {seen : List κ}
    {out : List α} (h : dfs succ n (x :: stack) seen = some out) : x ∈ out := by
  cases n with
  | zero => simp [dfs] at h
  | succ n =>
      simp only [dfs, Option.map_eq_some_iff] at h
      obtain ⟨rest, -, rfl⟩ := h
      exact List.mem_cons_self

/-! ## Dropping nodes -/

/-- `seen` and `seen'` hold the same keys of kept nodes. -/
def SameSeen (kept : κ → Prop) (seen seen' : List κ) : Prop :=
  ∀ k, kept k → (k ∈ seen ↔ k ∈ seen')

omit [DecidableEq κ] in
theorem SameSeen.cons {kept : κ → Prop} {seen seen' : List κ} (h : SameSeen kept seen seen')
    (k : κ) : SameSeen kept (k :: seen) (k :: seen') := by
  intro j hj
  simp [h j hj]

omit [DecidableEq κ] in
theorem SameSeen.cons_left {kept : κ → Prop} {seen seen' : List κ}
    (h : SameSeen kept seen seen') {k : κ} (hk : ¬ kept k) : SameSeen kept (k :: seen) seen' := by
  intro j hj
  have : j ≠ k := fun e => hk (e ▸ hj)
  simp [this, h j hj]

/-- Pushing and then dropping is dropping and then pushing. -/
theorem dfsPush_filter {keep : α → Bool} {kept : κ → Prop} {succs : List (κ × α)}
    (stack : List α) {seen seen' : List κ}
    (hk : ∀ p ∈ succs, kept p.1 ↔ keep p.2 = true) (hs : SameSeen kept seen seen') :
    (dfsPush succs stack seen).1.filter keep =
        (dfsPush (succs.filter fun p => keep p.2) (stack.filter keep) seen').1 ∧
      SameSeen kept (dfsPush succs stack seen).2
        (dfsPush (succs.filter fun p => keep p.2) (stack.filter keep) seen').2 := by
  induction succs generalizing stack seen seen' with
  | nil => exact ⟨rfl, hs⟩
  | cons p succs ih =>
      have hk' : ∀ q ∈ succs, kept q.1 ↔ keep q.2 = true :=
        fun q hq => hk q (List.mem_cons_of_mem _ hq)
      have hp := hk p List.mem_cons_self
      rw [dfsPush_cons]
      by_cases hkeep : keep p.2 = true
      · have hf : (p :: succs).filter (fun p => keep p.2) =
            p :: succs.filter fun p => keep p.2 := by simp [hkeep]
        rw [hf, dfsPush_cons]
        by_cases hseen : p.1 ∈ seen
        · rw [if_pos hseen, if_pos ((hs _ (hp.mpr hkeep)).mp hseen)]
          exact ih stack hk' hs
        · rw [if_neg hseen, if_neg (fun h => hseen ((hs _ (hp.mpr hkeep)).mpr h))]
          have := ih (p.2 :: stack) hk' (hs.cons p.1)
          rwa [List.filter_cons_of_pos hkeep] at this
      · have hf : (p :: succs).filter (fun p => keep p.2) =
            succs.filter fun p => keep p.2 := by simp [hkeep]
        rw [hf]
        by_cases hseen : p.1 ∈ seen
        · rw [if_pos hseen]
          exact ih stack hk' hs
        · rw [if_neg hseen]
          have := ih (p.2 :: stack) hk' (hs.cons_left fun h => hkeep (hp.mp h))
          rwa [List.filter_cons_of_neg hkeep] at this

/-- If what is dropped only leads to nodes that are dropped, searching and then dropping
    is searching among the kept nodes only. `P` marks the nodes that can be reached. -/
theorem dfs_filter {succ : α → List (κ × α)} {keep : α → Bool} (kept : κ → Prop) (P : α → Prop)
    (hP : ∀ x, P x → ∀ p ∈ succ x, P p.2 ∧ (kept p.1 ↔ keep p.2 = true))
    (hdrop : ∀ x, P x → keep x = false → ∀ p ∈ succ x, keep p.2 = false) :
    ∀ (n m : ℕ) (stack : List α) (seen seen' : List κ) (out out' : List α),
      (∀ x ∈ stack, P x) → SameSeen kept seen seen' →
      dfs succ n stack seen = some out →
      dfs (fun x => (succ x).filter fun p => keep p.2) m (stack.filter keep) seen' = some out' →
      out.filter keep = out' := by
  intro n
  induction n with
  | zero =>
      intro m stack seen seen' out out' _ _ h h'
      cases stack with
      | nil =>
          obtain rfl : [] = out := by simpa using h
          simpa using h'
      | cons x stack => simp [dfs] at h
  | succ n ih =>
      intro m stack seen seen' out out' hst hs h h'
      cases stack with
      | nil =>
          obtain rfl : [] = out := by simpa using h
          simpa using h'
      | cons x stack =>
          simp only [dfs, Option.map_eq_some_iff] at h
          obtain ⟨rest, hrest, rfl⟩ := h
          have hx := hst x List.mem_cons_self
          have hst' : ∀ y ∈ (dfsPush (succ x) stack seen).1, P y := by
            intro y hy
            rcases mem_dfsPush hy with hy | ⟨k, hy⟩
            · exact hst y (List.mem_cons_of_mem _ hy)
            · exact (hP x hx _ hy).1
          obtain ⟨hstack, hseen⟩ := dfsPush_filter stack (fun p hp => (hP x hx p hp).2) hs
          by_cases hkeep : keep x = true
          · rw [List.filter_cons_of_pos hkeep] at h' ⊢
            cases m with
            | zero => simp [dfs] at h'
            | succ m =>
                simp only [dfs, Option.map_eq_some_iff] at h'
                obtain ⟨rest', hrest', rfl⟩ := h'
                rw [ih m _ _ _ rest rest' hst' hseen hrest (hstack ▸ hrest')]
          · -- a dropped node pushes dropped nodes only
            rw [List.filter_cons_of_neg hkeep] at h' ⊢
            have hnil : (succ x).filter (fun p => keep p.2) = [] := by
              rw [List.filter_eq_nil_iff]
              intro p hp
              simp [hdrop x hx (by simpa using hkeep) p hp]
            rw [hnil, dfsPush_nil] at hstack hseen
            exact ih m _ _ seen' rest out' hst' hseen hrest (hstack ▸ h')

/-! ## Everything that can be reached is listed -/

theorem subset_dfsPush (succs : List (κ × α)) (stack : List α) (seen : List κ) :
    stack ⊆ (dfsPush succs stack seen).1 ∧ seen ⊆ (dfsPush succs stack seen).2 := by
  induction succs generalizing stack seen with
  | nil => exact ⟨List.Subset.refl _, List.Subset.refl _⟩
  | cons p succs ih =>
      rw [dfsPush_cons]
      split
      · exact ih stack seen
      · obtain ⟨h1, h2⟩ := ih (p.2 :: stack) (p.1 :: seen)
        exact ⟨fun y hy => h1 (List.mem_cons_of_mem _ hy),
          fun k hk => h2 (List.mem_cons_of_mem _ hk)⟩

/-- The keys of the successors are seen from then on. -/
theorem mem_seen_dfsPush {succs : List (κ × α)} {stack : List α} {seen : List κ} {p : κ × α}
    (hp : p ∈ succs) : p.1 ∈ (dfsPush succs stack seen).2 := by
  induction succs generalizing stack seen with
  | nil => exact absurd hp List.not_mem_nil
  | cons q succs ih =>
      rw [dfsPush_cons]
      rcases List.mem_cons.mp hp with rfl | hp
      · split
        · rename_i hseen
          exact (subset_dfsPush _ _ _).2 hseen
        · exact (subset_dfsPush _ _ _).2 List.mem_cons_self
      · split
        · exact ih hp
        · exact ih hp

/-- A key that is new belongs to a successor that was pushed. -/
theorem exists_of_mem_seen {succs : List (κ × α)} {stack : List α} {seen : List κ} {k : κ}
    (h : k ∈ (dfsPush succs stack seen).2) :
    k ∈ seen ∨ ∃ y, (k, y) ∈ succs ∧ y ∈ (dfsPush succs stack seen).1 := by
  induction succs generalizing stack seen with
  | nil => exact Or.inl h
  | cons p succs ih =>
      rw [dfsPush_cons] at h ⊢
      split at h
      · rename_i hseen
        rw [if_pos hseen]
        rcases ih h with h | ⟨y, hy, hmem⟩
        · exact Or.inl h
        · exact Or.inr ⟨y, List.mem_cons_of_mem _ hy, hmem⟩
      · rename_i hseen
        rw [if_neg hseen]
        rcases ih h with h | ⟨y, hy, hmem⟩
        · rcases List.mem_cons.mp h with rfl | h
          · exact Or.inr ⟨p.2, List.mem_cons_self, (subset_dfsPush _ _ _).1 List.mem_cons_self⟩
          · exact Or.inl h
        · exact Or.inr ⟨y, List.mem_cons_of_mem _ hy, hmem⟩

/-- What is on the stack is listed. -/
theorem mem_dfs_of_mem_stack {succ : α → List (κ × α)} {n : ℕ} {stack : List α} {seen : List κ}
    {out : List α} (h : dfs succ n stack seen = some out) : stack ⊆ out := by
  induction n generalizing stack seen out with
  | zero =>
      cases stack with
      | nil => exact List.nil_subset _
      | cons x stack => simp [dfs] at h
  | succ n ih =>
      cases stack with
      | nil => exact List.nil_subset _
      | cons x stack =>
          simp only [dfs, Option.map_eq_some_iff] at h
          obtain ⟨rest, hrest, rfl⟩ := h
          exact List.cons_subset_cons _ fun y hy => ih hrest ((subset_dfsPush _ _ _).1 hy)

/-- A successor of a node that is listed is listed under its key, unless the key was seen
    before the search. -/
theorem exists_mem_dfs_of_succ {succ : α → List (κ × α)} {n : ℕ} {stack : List α}
    {seen : List κ} {out : List α} (h : dfs succ n stack seen = some out) {x : α} (hx : x ∈ out)
    {p : κ × α} (hp : p ∈ succ x) :
    p.1 ∈ seen ∨ ∃ z ∈ out, ∃ y ∈ out, (p.1, y) ∈ succ z := by
  induction n generalizing stack seen out with
  | zero =>
      cases stack with
      | nil =>
          obtain rfl : [] = out := by simpa using h
          exact absurd hx List.not_mem_nil
      | cons x stack => simp [dfs] at h
  | succ n ih =>
      cases stack with
      | nil =>
          obtain rfl : [] = out := by simpa using h
          exact absurd hx List.not_mem_nil
      | cons x₀ stack =>
          simp only [dfs, Option.map_eq_some_iff] at h
          obtain ⟨rest, hrest, rfl⟩ := h
          have hkey : p.1 ∈ (dfsPush (succ x₀) stack seen).2 ∨
              ∃ z ∈ rest, ∃ y ∈ rest, (p.1, y) ∈ succ z := by
            rcases List.mem_cons.mp hx with rfl | hx
            · exact Or.inl (mem_seen_dfsPush hp)
            · exact ih hrest hx
          rcases hkey with hkey | ⟨z, hz, y, hy, hzy⟩
          · rcases exists_of_mem_seen hkey with hseen | ⟨y, hy, hmem⟩
            · exact Or.inl hseen
            · exact Or.inr ⟨x₀, List.mem_cons_self, y,
                List.mem_cons_of_mem _ (mem_dfs_of_mem_stack hrest hmem), hy⟩
          · exact Or.inr ⟨z, List.mem_cons_of_mem _ hz, y, List.mem_cons_of_mem _ hy, hzy⟩

/-! ## Nothing is listed twice -/

/-- Pushing keeps the keys on the stack distinct and seen. -/
theorem nodup_dfsPush (key : α → κ) {succs : List (κ × α)} (stack : List α) (seen : List κ)
    (hkey : ∀ p ∈ succs, p.1 = key p.2) (hnodup : (stack.map key).Nodup)
    (hseen : ∀ y ∈ stack, key y ∈ seen) :
    ((dfsPush succs stack seen).1.map key).Nodup ∧
      (∀ y ∈ (dfsPush succs stack seen).1, key y ∈ (dfsPush succs stack seen).2) ∧
      ∀ y ∈ (dfsPush succs stack seen).1, y ∈ stack ∨ key y ∉ seen := by
  induction succs generalizing stack seen with
  | nil => exact ⟨hnodup, hseen, fun y hy => Or.inl hy⟩
  | cons p succs ih =>
      have hkey' : ∀ q ∈ succs, q.1 = key q.2 := fun q hq => hkey q (List.mem_cons_of_mem _ hq)
      have hp := hkey p List.mem_cons_self
      rw [dfsPush_cons]
      split
      · exact ih stack seen hkey' hnodup hseen
      · rename_i hnot
        have hnew : key p.2 ∉ stack.map key := by
          intro hmem
          obtain ⟨y, hy, he⟩ := List.mem_map.mp hmem
          exact hnot (hp ▸ he ▸ hseen y hy)
        obtain ⟨h1, h2, h3⟩ := ih (p.2 :: stack) (p.1 :: seen) hkey'
          (by rw [List.map_cons]; exact List.nodup_cons.mpr ⟨hnew, hnodup⟩) (by
            intro y hy
            rcases List.mem_cons.mp hy with rfl | hy
            · exact hp ▸ List.mem_cons_self
            · exact List.mem_cons_of_mem _ (hseen y hy))
        refine ⟨h1, h2, fun y hy => ?_⟩
        rcases h3 y hy with hy | hy
        · rcases List.mem_cons.mp hy with rfl | hy
          · exact Or.inr (hp ▸ hnot)
          · exact Or.inl hy
        · exact Or.inr fun hmem => hy (List.mem_cons_of_mem _ hmem)

/-- With nodes pushed under their own keys, no key is listed twice. -/
theorem nodup_dfs {succ : α → List (κ × α)} {key : α → κ} (P : α → Prop)
    (hP : ∀ x, P x → ∀ p ∈ succ x, p.1 = key p.2 ∧ P p.2) {n : ℕ} {stack : List α}
    {seen : List κ} {out : List α} (h : dfs succ n stack seen = some out)
    (hst : ∀ x ∈ stack, P x) (hnodup : (stack.map key).Nodup)
    (hseen : ∀ y ∈ stack, key y ∈ seen) :
    (out.map key).Nodup ∧ ∀ y ∈ out, y ∈ stack ∨ key y ∉ seen := by
  induction n generalizing stack seen out with
  | zero =>
      cases stack with
      | nil =>
          obtain rfl : [] = out := by simpa using h
          exact ⟨List.nodup_nil, fun y hy => Or.inl hy⟩
      | cons x stack => simp [dfs] at h
  | succ n ih =>
      cases stack with
      | nil =>
          obtain rfl : [] = out := by simpa using h
          exact ⟨List.nodup_nil, fun y hy => Or.inl hy⟩
      | cons x stack =>
          simp only [dfs, Option.map_eq_some_iff] at h
          obtain ⟨rest, hrest, rfl⟩ := h
          have hx := hst x List.mem_cons_self
          rw [List.map_cons, List.nodup_cons] at hnodup
          obtain ⟨h1, h2, h3⟩ := nodup_dfsPush key stack seen
            (fun p hp => (hP x hx p hp).1) hnodup.2 fun y hy => hseen y (List.mem_cons_of_mem _ hy)
          have hst' : ∀ y ∈ (dfsPush (succ x) stack seen).1, P y := by
            intro y hy
            rcases mem_dfsPush hy with hy | ⟨k, hy⟩
            · exact hst y (List.mem_cons_of_mem _ hy)
            · exact (hP x hx _ hy).2
          obtain ⟨h4, h5⟩ := ih hrest hst' h1 h2
          -- a key that is listed later is on the stack or was not seen
          have hlater : ∀ y ∈ rest, y ∈ stack ∨ key y ∉ seen := by
            intro y hy
            rcases h5 y hy with hy | hy
            · exact h3 y hy
            · exact Or.inr fun hmem => hy ((subset_dfsPush _ _ _).2 hmem)
          refine ⟨?_, ?_⟩
          · rw [List.map_cons, List.nodup_cons]
            refine ⟨fun hmem => ?_, h4⟩
            obtain ⟨y, hy, he⟩ := List.mem_map.mp hmem
            rcases hlater y hy with hys | hnot
            · exact hnodup.1 (he ▸ List.mem_map_of_mem hys)
            · exact hnot (he ▸ hseen x List.mem_cons_self)
          · intro y hy
            rcases List.mem_cons.mp hy with rfl | hy
            · exact Or.inl List.mem_cons_self
            · rcases hlater y hy with hys | hnot
              · exact Or.inl (List.mem_cons_of_mem _ hys)
              · exact Or.inr hnot

/-! ## What the listing depends on -/

/-- The search depends on the successors of the nodes it lists only. -/
theorem dfs_congr {succ succ' : α → List (κ × α)} (P : α → Prop)
    (hP : ∀ x, P x → ∀ p ∈ succ x, P p.2) (heq : ∀ x, P x → succ x = succ' x) :
    ∀ (n : ℕ) (stack : List α) (seen : List κ), (∀ x ∈ stack, P x) →
      dfs succ n stack seen = dfs succ' n stack seen := by
  intro n
  induction n with
  | zero =>
      intro stack seen _
      cases stack <;> rfl
  | succ n ih =>
      intro stack seen hst
      cases stack with
      | nil => rfl
      | cons x stack =>
          have hx := hst x List.mem_cons_self
          simp only [dfs]
          rw [heq x hx, ih]
          intro y hy
          rcases mem_dfsPush hy with hy | ⟨k, hy⟩
          · exact hst y (List.mem_cons_of_mem _ hy)
          · exact hP x hx (k, y) (heq x hx ▸ hy)

/-- Pushing nodes that are renamed. -/
theorem dfsPush_map {β : Type} (f : α → β) (succs : List (κ × α)) (stack : List α)
    (seen : List κ) :
    dfsPush (succs.map fun p => (p.1, f p.2)) (stack.map f) seen =
      ((dfsPush succs stack seen).1.map f, (dfsPush succs stack seen).2) := by
  induction succs generalizing stack seen with
  | nil => rfl
  | cons p succs ih =>
      rw [List.map_cons, dfsPush_cons, dfsPush_cons]
      split
      · exact ih stack seen
      · exact ih (p.2 :: stack) (p.1 :: seen)

/-- The search commutes with a renaming of the nodes that keeps their keys. -/
theorem dfs_map {β : Type} (f : α → β) {succ : α → List (κ × α)} {succ' : β → List (κ × β)}
    (heq : ∀ x, succ' (f x) = (succ x).map fun p => (p.1, f p.2)) (n : ℕ) (stack : List α)
    (seen : List κ) :
    dfs succ' n (stack.map f) seen = (dfs succ n stack seen).map (List.map f) := by
  induction n generalizing stack seen with
  | zero => cases stack <;> rfl
  | succ n ih =>
      cases stack with
      | nil => rfl
      | cons x stack =>
          simp only [List.map_cons, dfs, heq, dfsPush_map, ih, Option.map_map]
          rfl

/-- Once it is enough, the fuel does not matter. -/
theorem dfs_fuel {succ : α → List (κ × α)} {n m : ℕ} {stack : List α} {seen : List κ}
    {out out' : List α} (h : dfs succ n stack seen = some out)
    (h' : dfs succ m stack seen = some out') : out = out' := by
  induction n generalizing m stack seen out out' with
  | zero =>
      cases stack with
      | nil => simp_all
      | cons x stack => simp [dfs] at h
  | succ n ih =>
      cases stack with
      | nil => simp_all
      | cons x stack =>
          cases m with
          | zero => simp [dfs] at h'
          | succ m =>
              simp only [dfs, Option.map_eq_some_iff] at h h'
              obtain ⟨rest, hrest, rfl⟩ := h
              obtain ⟨rest', hrest', rfl⟩ := h'
              rw [ih hrest hrest']

end DagBft
