/-
  A reorder buffer. Numbered items come in any order and are taken in the order of their
  numbers: an item that comes at its turn is taken, and after it those that are kept and
  follow it; an item that comes too early is kept. What is done with an item, which items
  must not come too early and how many are kept are parameters.

  `pending_of_acceptAll`: a run without an error takes the items in order, and keeps what
  came too early.
  `acceptAll_ok`: there is no error if no item is refused and taking them in order gives
  none.
-/
import Mathlib.Data.List.AList
import Mathlib.Data.List.Perm.Basic
import Mathlib.Data.List.Induction
import Mathlib.Tactic.Push

namespace DagBft

/-- What is done with the items. -/
structure ReorderRules (σ M ε : Type) where
  /-- Take an item at its turn. -/
  take : ℕ → M → σ → Except ε σ
  /-- The error if the item comes too early, unless it is kept. -/
  early : M → Option ε
  /-- How many items are kept. -/
  limit : ℕ
  full : ε
  /-- The error if an item comes after its turn, unless it is discarded. -/
  past : Option ε

structure Reorder (σ M : Type) where
  state : σ
  next : ℕ
  buffer : AList fun _ : ℕ => M

namespace Reorder

variable {σ M ε : Type} (r : ReorderRules σ M ε)

def takeNext (item : M) (b : Reorder σ M) : Except ε (Reorder σ M) :=
  (r.take b.next item b.state).map fun s => { b with state := s, next := b.next + 1 }

/-- Take consecutive items out of the buffer. Its size bounds the number of iterations. -/
def drain : ℕ → Reorder σ M → Except ε (Reorder σ M)
  | 0, b => .ok b
  | n + 1, b =>
      match b.buffer.lookup b.next with
      | none => .ok b
      | some item => do
          let b ← takeNext r item { b with buffer := b.buffer.erase b.next }
          drain n b

variable {r} in
theorem drain_succ_none {n : ℕ} {b : Reorder σ M} (h : b.buffer.lookup b.next = none) :
    drain r (n + 1) b = .ok b := by
  unfold drain
  rw [h]

variable {r} in
theorem drain_succ_some {n : ℕ} {b : Reorder σ M} {item : M}
    (h : b.buffer.lookup b.next = some item) :
    drain r (n + 1) b =
      takeNext r item { b with buffer := b.buffer.erase b.next } >>= drain r n := by
  rw [drain, h]

/-- An item comes. -/
def accept (b : Reorder σ M) (k : ℕ) (item : M) : Except ε (Reorder σ M) :=
  if k = b.next then do
    let b ← takeNext r item b
    drain r b.buffer.entries.length b
  else if b.next < k then
    match r.early item with
    | some e => .error e
    | none =>
        if b.buffer.entries.length < r.limit then
          .ok { b with buffer := b.buffer.insert k item }
        else .error r.full
  else
    match r.past with
    | some e => .error e
    | none => .ok b

def initial (s : σ) : Reorder σ M := ⟨s, 0, ∅⟩

/-- The items come in this order. -/
def acceptAll (items : ℕ → M) (order : List ℕ) (b : Reorder σ M) : Except ε (Reorder σ M) :=
  order.foldlM (fun b k => accept r b k (items k)) b

/-! ## Taking the items in order -/

/-- The first `n` items are taken one after the other. -/
def inOrder (items : ℕ → M) (n : ℕ) (s : σ) : Except ε σ :=
  (List.range n).foldlM (fun s k => r.take k (items k) s) s

variable {r} {items : ℕ → M} {s₀ : σ}

theorem inOrder_succ (n : ℕ) :
    inOrder r items (n + 1) s₀ = inOrder r items n s₀ >>= r.take n (items n) := by
  unfold inOrder
  rw [List.range_succ, List.foldlM_append]
  congr 1
  funext s
  rw [List.foldlM_cons]
  cases r.take n (items n) s <;> rfl

/-- What comes before an item that can be taken can be taken too. -/
theorem inOrder_of_le {m n : ℕ} (hle : m ≤ n) {s : σ} (h : inOrder r items n s₀ = .ok s) :
    ∃ s', inOrder r items m s₀ = .ok s' := by
  induction n generalizing s with
  | zero =>
      obtain rfl : m = 0 := by omega
      exact ⟨s, h⟩
  | succ n ih =>
      rcases Nat.lt_or_ge m (n + 1) with hlt | hge
      · rw [inOrder_succ] at h
        cases hn : inOrder r items n s₀ with
        | error e =>
            rw [hn] at h
            cases h
        | ok s' => exact ih (by omega) hn
      · obtain rfl : m = n + 1 := by omega
        exact ⟨s, h⟩

/-! ## The invariant -/

variable (r items s₀)

/-- The numbers that came before one of a lower number. -/
def waiting (arrived : List ℕ) : List ℕ := arrived.filter fun k => ∃ j < k, j ∉ arrived

/-- The items up to the first missing one are taken, the others that came are kept. -/
structure Pending (arrived : List ℕ) (b : Reorder σ M) : Prop where
  taken : ∀ j < b.next, j ∈ arrived
  missing : b.next ∉ arrived
  kept : ∀ k, b.buffer.lookup k = if k ∈ arrived ∧ b.next < k then some (items k) else none
  state : inOrder r items b.next s₀ = .ok b.state

/-- The invariant of `drain`: the next item may be kept as well. -/
structure Draining (arrived : List ℕ) (b : Reorder σ M) : Prop where
  taken : ∀ j < b.next, j ∈ arrived
  kept : ∀ k, b.buffer.lookup k = if k ∈ arrived ∧ b.next ≤ k then some (items k) else none
  state : inOrder r items b.next s₀ = .ok b.state

variable {r items s₀} {arrived : List ℕ} {b : Reorder σ M}

theorem pending_initial : Pending r items s₀ [] (initial s₀) where
  taken j hj := absurd hj (Nat.not_lt_zero j)
  missing := List.not_mem_nil
  kept k := by simp [initial]
  state := rfl

/-- The loop ends where the next item is missing. -/
theorem Draining.pending (hd : Draining r items s₀ arrived b)
    (hmissing : b.buffer.lookup b.next = none) : Pending r items s₀ arrived b := by
  have hnot : b.next ∉ arrived := by
    intro hmem
    rw [hd.kept, if_pos ⟨hmem, le_refl _⟩] at hmissing
    cases hmissing
  refine ⟨hd.taken, hnot, fun k => ?_, hd.state⟩
  rw [hd.kept]
  refine if_congr ?_ rfl rfl
  constructor
  · intro h
    exact ⟨h.1, lt_of_le_of_ne h.2 fun he => hnot (he ▸ h.1)⟩
  · intro h
    exact ⟨h.1, Nat.le_of_lt h.2⟩

/-- Taking the next item, which is not in the buffer any more. -/
theorem takeNext_cases (htaken : ∀ j < b.next, j ∈ arrived) (hmem : b.next ∈ arrived)
    (hkept : ∀ k, b.buffer.lookup k =
      if k ∈ arrived ∧ b.next + 1 ≤ k then some (items k) else none)
    (hstate : inOrder r items b.next s₀ = .ok b.state) :
    (∃ b', takeNext r (items b.next) b = .ok b' ∧ b'.buffer = b.buffer ∧
        Draining r items s₀ arrived b') ∨
      ∃ e, takeNext r (items b.next) b = .error e ∧
        inOrder r items (b.next + 1) s₀ = .error e := by
  have hsucc : inOrder r items (b.next + 1) s₀ = r.take b.next (items b.next) b.state := by
    rw [inOrder_succ, hstate]
    rfl
  unfold takeNext
  cases htake : r.take b.next (items b.next) b.state with
  | error e => exact Or.inr ⟨e, rfl, hsucc.trans htake⟩
  | ok s =>
      refine Or.inl ⟨_, rfl, rfl, ?_, hkept, hsucc.trans htake⟩
      intro j hj
      rcases Nat.lt_succ_iff_lt_or_eq.mp hj with hlt | rfl
      · exact htaken j hlt
      · exact hmem

theorem length_erase_buffer {k : ℕ} {item : M} (h : b.buffer.lookup k = some item) :
    (b.buffer.erase k).entries.length + 1 = b.buffer.entries.length := by
  have hmem : k ∈ b.buffer.keys :=
    AList.mem_keys.mp (AList.lookup_isSome.mp (by rw [h]; rfl))
  have hkeys : ∀ m : AList fun _ : ℕ => M, m.entries.length = m.keys.length := fun m =>
    (List.length_map _).symm
  rw [hkeys, hkeys, AList.keys_erase, List.length_erase_of_mem hmem]
  have := List.length_pos_of_mem hmem
  omega

theorem drain_cases {n : ℕ} (hd : Draining r items s₀ arrived b)
    (hn : b.buffer.entries.length ≤ n) :
    (∃ b', drain r n b = .ok b' ∧ Pending r items s₀ arrived b') ∨
      ∃ j ∈ arrived, ∃ e, drain r n b = .error e ∧ inOrder r items (j + 1) s₀ = .error e := by
  induction n generalizing b with
  | zero =>
      have hnil : b.buffer.entries = [] := List.length_eq_zero_iff.mp (by omega)
      refine Or.inl ⟨b, rfl, hd.pending ?_⟩
      rw [AList.lookup, hnil]
      rfl
  | succ n ih =>
      cases hlook : b.buffer.lookup b.next with
      | none => exact Or.inl ⟨b, drain_succ_none hlook, hd.pending hlook⟩
      | some item =>
          have hmem : b.next ∈ arrived := by
            by_contra hnot
            rw [hd.kept, if_neg fun h => hnot h.1] at hlook
            cases hlook
          obtain rfl : items b.next = item := by
            rw [hd.kept, if_pos ⟨hmem, le_refl _⟩] at hlook
            exact Option.some.inj hlook
          have hkept : ∀ k, (b.buffer.erase b.next).lookup k =
              if k ∈ arrived ∧ b.next + 1 ≤ k then some (items k) else none := by
            intro k
            by_cases hk : k = b.next
            · subst hk
              rw [AList.lookup_erase, if_neg (by omega)]
            · rw [AList.lookup_erase_ne hk, hd.kept]
              exact if_congr (and_congr_right' (by omega)) rfl rfl
          have hlen := length_erase_buffer hlook
          rw [drain_succ_some hlook]
          rcases takeNext_cases (b := { b with buffer := b.buffer.erase b.next }) hd.taken hmem
              hkept hd.state with ⟨b', htake, hbuffer, hd'⟩ | ⟨e, htake, he⟩
          · have hlen' : b'.buffer.entries.length ≤ n := by
              rw [hbuffer]
              show (b.buffer.erase b.next).entries.length ≤ n
              omega
            show (∃ b'', (takeNext r (items b.next) _ >>= drain r n) = .ok b'' ∧ _) ∨ _
            rw [htake]
            exact ih hd' hlen'
          · refine Or.inr ⟨b.next, hmem, e, ?_, he⟩
            show (takeNext r (items b.next) _ >>= drain r n) = _
            rw [htake]
            rfl

/-! ## An item comes -/

theorem mem_snoc {k : ℕ} (j : ℕ) : j ∈ arrived ++ [k] ↔ j ∈ arrived ∨ j = k := by simp

/-- The numbers that are kept are those that came too early. -/
theorem Pending.early_iff (hp : Pending r items s₀ arrived b) {k : ℕ} :
    (∃ j < k, j ∉ arrived) ↔ b.next < k := by
  constructor
  · rintro ⟨j, hj, hnot⟩
    by_contra hle
    exact hnot (hp.taken j (by omega))
  · intro hlt
    exact ⟨b.next, hlt, hp.missing⟩

theorem Pending.length_buffer (hp : Pending r items s₀ arrived b) (hnodup : arrived.Nodup) :
    b.buffer.entries.length = (waiting arrived).length := by
  have hkeys : b.buffer.keys.Perm (waiting arrived) := by
    refine (List.perm_ext_iff_of_nodup b.buffer.keys_nodup (hnodup.filter _)).mpr fun k => ?_
    rw [List.mem_filter, decide_eq_true_eq, hp.early_iff, ← AList.mem_keys,
      ← AList.lookup_isSome, hp.kept]
    split
    · rename_i h
      exact iff_of_true rfl h
    · rename_i h
      exact iff_of_false (by simp) h
  rw [← hkeys.length_eq]
  exact (List.length_map _).symm

/-- An item that comes at its turn. -/
theorem accept_now (hp : Pending r items s₀ arrived b) :
    (∃ b', accept r b b.next (items b.next) = .ok b' ∧
        Pending r items s₀ (arrived ++ [b.next]) b') ∨
      ∃ j ∈ arrived ++ [b.next], ∃ e, accept r b b.next (items b.next) = .error e ∧
        inOrder r items (j + 1) s₀ = .error e := by
  have hmem : b.next ∈ arrived ++ [b.next] := (mem_snoc _).mpr (Or.inr rfl)
  have hkept : ∀ k, b.buffer.lookup k =
      if k ∈ arrived ++ [b.next] ∧ b.next + 1 ≤ k then some (items k) else none := by
    intro k
    rw [hp.kept]
    refine if_congr ?_ rfl rfl
    rw [mem_snoc]
    constructor
    · intro h
      exact ⟨Or.inl h.1, h.2⟩
    · rintro ⟨h | h, hlt⟩
      · exact ⟨h, hlt⟩
      · omega
  have htaken : ∀ j < b.next, j ∈ arrived ++ [b.next] := fun j hj =>
    (mem_snoc j).mpr (Or.inl (hp.taken j hj))
  unfold accept
  rw [if_pos rfl]
  rcases takeNext_cases htaken hmem hkept hp.state with ⟨b', htake, -, hd⟩ | ⟨e, htake, he⟩
  · rw [htake]
    exact drain_cases hd (le_refl _)
  · exact Or.inr ⟨b.next, hmem, e, by rw [htake]; rfl, he⟩

/-- An item that comes too early and is kept. -/
theorem accept_early (hp : Pending r items s₀ arrived b) {k : ℕ} (hlt : b.next < k)
    (hearly : r.early (items k) = none) (hroom : b.buffer.entries.length < r.limit) :
    ∃ b', accept r b k (items k) = .ok b' ∧ Pending r items s₀ (arrived ++ [k]) b' := by
  unfold accept
  rw [if_neg (by omega), if_pos hlt, hearly]
  refine ⟨_, if_pos hroom, fun j hj => (mem_snoc j).mpr (Or.inl (hp.taken j hj)), ?_, ?_, hp.state⟩
  · rw [mem_snoc]
    rintro (h | h)
    · exact hp.missing h
    · exact absurd h (Nat.ne_of_lt hlt)
  · intro j
    show (b.buffer.insert k (items k)).lookup j = _
    by_cases hj : j = k
    · subst hj
      rw [AList.lookup_insert, if_pos ⟨(mem_snoc j).mpr (Or.inr rfl), hlt⟩]
    · rw [AList.lookup_insert_ne hj, hp.kept]
      refine if_congr (and_congr_left' ?_) rfl rfl
      rw [mem_snoc]
      exact (or_iff_left hj).symm

/-- An item that is refused. -/
theorem accept_refused (hlt : b.next < k) {e : ε} (hearly : r.early item = some e) :
    accept r b k item = .error e := by
  unfold accept
  rw [if_neg (by omega), if_pos hlt, hearly]

/-! ## Runs -/

theorem acceptAll_snoc (order : List ℕ) (k : ℕ) :
    acceptAll r items (order ++ [k]) b =
      acceptAll r items order b >>= fun b => accept r b k (items k) := by
  unfold acceptAll
  rw [List.foldlM_append]
  congr 1
  funext b
  rw [List.foldlM_cons]
  cases accept r b k (items k) <;> rfl

/-- Where a list with one more element can be split. -/
theorem split_snoc {P : List ℕ → ℕ → Prop} {order : List ℕ} {k : ℕ} :
    (∀ pre j post, order ++ [k] = pre ++ j :: post → P pre j) ↔
      (∀ pre j post, order = pre ++ j :: post → P pre j) ∧ P order k := by
  constructor
  · intro h
    refine ⟨fun pre j post he => h pre j (post ++ [k]) ?_, h order k [] rfl⟩
    rw [he, List.append_assoc, List.cons_append]
  · rintro ⟨h, hlast⟩ pre j post he
    rcases List.eq_nil_or_concat post with rfl | ⟨post, k', rfl⟩
    · obtain rfl := List.append_inj_left' he rfl
      obtain rfl := List.head_eq_of_cons_eq (List.append_inj_right' he rfl)
      exact hlast
    · rw [List.concat_eq_append, ← List.cons_append, ← List.append_assoc] at he
      exact h pre j post (List.append_inj_left' he rfl)

/-- A run without an error refuses nothing, and takes the items up to the first one that is
    missing. -/
theorem pending_of_acceptAll {order : List ℕ} (hnodup : order.Nodup)
    (h : acceptAll r items order (initial s₀) = .ok b) :
    Pending r items s₀ order b ∧ ∀ pre k post, order = pre ++ k :: post →
      (∃ j < k, j ∉ pre) → r.early (items k) = none := by
  induction order using List.reverseRecOn generalizing b with
  | nil =>
      obtain rfl : initial s₀ = b := Except.ok.inj h
      refine ⟨pending_initial, fun pre k post he => ?_⟩
      exact absurd he (by simp)
  | append_singleton order k ih =>
      rw [acceptAll_snoc] at h
      have hnot : k ∉ order := fun hmem =>
        (List.nodup_append.mp hnodup).2.2 k hmem k (by simp) rfl
      cases hall : acceptAll r items order (initial s₀) with
      | error e =>
          rw [hall] at h
          cases h
      | ok b₁ =>
          rw [hall] at h
          obtain ⟨hp, hearly⟩ := ih (List.nodup_append.mp hnodup).1 hall
          have hk : accept r b₁ k (items k) = .ok b := h
          rw [split_snoc (P := fun pre k => (∃ j < k, j ∉ pre) → r.early (items k) = none),
            hp.early_iff]
          rcases Nat.lt_trichotomy k b₁.next with hlt | rfl | hgt
          · exact absurd (hp.taken k hlt) hnot
          · refine ⟨?_, hearly, fun hlt => absurd hlt (lt_irrefl _)⟩
            rcases accept_now hp with ⟨b', hb', hp'⟩ | ⟨j, -, e, he, -⟩
            · rw [hk] at hb'
              exact Except.ok.inj hb' ▸ hp'
            · rw [hk] at he
              cases he
          · cases hr : r.early (items k) with
            | some e =>
                rw [accept_refused hgt hr] at hk
                cases hk
            | none =>
                refine ⟨?_, hearly, fun _ => rfl⟩
                have hroom : b₁.buffer.entries.length < r.limit := by
                  by_contra hfull
                  unfold accept at hk
                  rw [if_neg (by omega), if_pos hgt, hr] at hk
                  simp [hfull] at hk
                obtain ⟨b', hb', hp'⟩ := accept_early hp hgt hr hroom
                rw [hk] at hb'
                exact Except.ok.inj hb' ▸ hp'

/-- There is no error if nothing is refused, there is room for what comes too early, and
    taking the items in order gives no error. -/
theorem acceptAll_ok {order : List ℕ} (hnodup : order.Nodup)
    (hearly : ∀ pre k post, order = pre ++ k :: post →
      (∃ j < k, j ∉ pre) → r.early (items k) = none ∧ (waiting pre).length < r.limit)
    (htake : ∀ k ∈ order, ∃ s, inOrder r items (k + 1) s₀ = .ok s) :
    ∃ b, acceptAll r items order (initial s₀) = .ok b := by
  induction order using List.reverseRecOn with
  | nil => exact ⟨_, rfl⟩
  | append_singleton order k ih =>
      have hnot : k ∉ order := fun hmem =>
        (List.nodup_append.mp hnodup).2.2 k hmem k (by simp) rfl
      have hnodup' := (List.nodup_append.mp hnodup).1
      obtain ⟨hearly, hlast⟩ := (split_snoc (P := fun pre k => (∃ j < k, j ∉ pre) →
        r.early (items k) = none ∧ (waiting pre).length < r.limit)).mp hearly
      obtain ⟨b₁, hall⟩ := ih hnodup' hearly fun j hj => htake j (List.mem_append_left _ hj)
      obtain ⟨hp, -⟩ := pending_of_acceptAll hnodup' hall
      rw [acceptAll_snoc, hall]
      rcases Nat.lt_trichotomy k b₁.next with hlt | rfl | hgt
      · exact absurd (hp.taken k hlt) hnot
      · rcases accept_now hp with ⟨b', hb', -⟩ | ⟨j, hj, e, -, he⟩
        · exact ⟨b', hb'⟩
        · obtain ⟨s, hs⟩ := htake j hj
          rw [hs] at he
          cases he
      · obtain ⟨hnone, hroom⟩ := hlast (hp.early_iff.mpr hgt)
        obtain ⟨b', hb', -⟩ := accept_early hp hgt hnone (by rwa [hp.length_buffer hnodup'])
        exact ⟨b', hb'⟩

theorem take_of_inOrder {n : ℕ} {e : ε} (h : inOrder r items n s₀ = .error e) :
    ∃ k s, r.take k (items k) s = .error e := by
  induction n with
  | zero => cases h
  | succ n ih =>
      rw [inOrder_succ] at h
      cases hn : inOrder r items n s₀ with
      | error e' =>
          rw [hn] at h
          obtain rfl : e' = e := Except.error.inj h
          exact ih hn
      | ok s =>
          rw [hn] at h
          exact ⟨n, s, h⟩

/-- If no item comes twice, then none comes after its turn: an error is one of taking an item,
    or of one that comes too early. -/
theorem error_of_acceptAll {order : List ℕ} {e : ε} (hnodup : order.Nodup)
    (h : acceptAll r items order (initial s₀) = .error e) :
    (∃ k s, r.take k (items k) s = .error e) ∨ (∃ k, r.early (items k) = some e) ∨
      e = r.full := by
  induction order using List.reverseRecOn with
  | nil => cases h
  | append_singleton order k ih =>
      have hnodup' := (List.nodup_append.mp hnodup).1
      rw [acceptAll_snoc] at h
      cases hall : acceptAll r items order (initial s₀) with
      | error e' =>
          rw [hall] at h
          obtain rfl : e' = e := Except.error.inj h
          exact ih hnodup' hall
      | ok b =>
          rw [hall] at h
          have hk : accept r b k (items k) = .error e := h
          obtain ⟨hp, -⟩ := pending_of_acceptAll hnodup' hall
          rcases Nat.lt_trichotomy k b.next with hlt | rfl | hgt
          · exact absurd rfl ((List.nodup_append.mp hnodup).2.2 k (hp.taken k hlt) k (by simp))
          · rcases accept_now hp with ⟨b', hb', -⟩ | ⟨j, -, e', he', hin⟩
            · rw [hk] at hb'
              cases hb'
            · rw [hk] at he'
              obtain rfl := Except.error.inj he'
              exact Or.inl (take_of_inOrder hin)
          · unfold accept at hk
            rw [if_neg (by omega), if_pos hgt] at hk
            cases hr : r.early (items k) with
            | some e' =>
                rw [hr] at hk
                exact Or.inr (Or.inl ⟨k, hr.trans (congrArg some (Except.error.inj hk))⟩)
            | none =>
                rw [hr] at hk
                dsimp only at hk
                split at hk
                · cases hk
                · exact Or.inr (Or.inr (Except.error.inj hk).symm)

/-- When all items have come they have all been taken, and none is kept. -/
theorem Pending.complete {n : ℕ} {order : List ℕ} (hp : Pending r items s₀ order b)
    (hperm : order.Perm (List.range n)) :
    b.next = n ∧ b.buffer = ∅ ∧ inOrder r items n s₀ = .ok b.state := by
  have hmem : ∀ j, j ∈ order ↔ j < n := fun j => by rw [hperm.mem_iff, List.mem_range]
  have hnext : b.next = n := by
    have hge : n ≤ b.next := Nat.le_of_not_lt fun hlt => hp.missing ((hmem _).mpr hlt)
    rcases Nat.lt_or_ge n b.next with hlt | hle
    · exact absurd ((hmem n).mp (hp.taken n hlt)) (lt_irrefl n)
    · omega
  refine ⟨hnext, ?_, hnext ▸ hp.state⟩
  have hkeys : b.buffer.keys = [] := by
    rw [List.eq_nil_iff_forall_not_mem]
    intro k hk
    have hsome := AList.lookup_isSome.mpr (AList.mem_keys.mpr hk)
    rw [hp.kept, if_neg (by rw [hmem]; omega)] at hsome
    cases hsome
  exact AList.ext (List.map_eq_nil_iff.mp hkeys)

end Reorder

end DagBft
