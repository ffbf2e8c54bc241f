/-
  Jobs over cells whose state is handed over between sites.

  A plan is a sequence of jobs. Each job names the cells it works on and the site that
  runs it; that site owns the cells from then on. A site takes the jobs in order. It
  holds back a job that it cannot deal with yet, and it may deal with a held back job
  only if no earlier one that it holds back has a cell in common with it. To deal with a
  job is to run it, on the site it is for, or to release its cells to that site, on a site
  that owns some of them.

  `Inv` is what holds in every state: each cell is in the store of one site or is on its
  way for one job (`State.loc`), and everything that ran on it is the initial segment
  `State.front` of the plan. `progress` is the absence of deadlocks, and `finished` says
  where the cells are when no job is held back.
-/
import Mathlib.Data.List.Sort
import Mathlib.Logic.Function.Basic
import Mathlib.Logic.Relation
import Mathlib.Order.Basic
import Mathlib.Tactic.Common

namespace Handover

variable {A E : Type} [DecidableEq A] [DecidableEq E]

structure Job (A E : Type) where
  cells : List A
  target : E

/-- A sequence of jobs, and who owns the cells before the first one. -/
structure Plan (A E : Type) where
  job : ℕ → Job A E
  home : A → E

namespace Plan

variable (π : Plan A E)

def cells (j : ℕ) : List A := (π.job j).cells

def target (j : ℕ) : E := (π.job j).target

/-- The owner of a cell before job `j`. -/
def owner : ℕ → A → E
  | 0, a => π.home a
  | j + 1, a => if a ∈ π.cells j then π.target j else owner j a

/-- The cells of job `j` that concern site `e`: all of them where it runs, and those to
    release elsewhere. -/
def touches (e : E) (j : ℕ) : List A :=
  if π.target j = e then π.cells j else (π.cells j).filter fun a => π.owner j a = e

/-- No job from `i` to `j` works on the cell. -/
def Clear (a : A) (i j : ℕ) : Prop := ∀ m, i ≤ m → m < j → a ∉ π.cells m

variable {π} {a : A} {i j m : ℕ} {e : E}

theorem mem_touches : a ∈ π.touches e j ↔
    a ∈ π.cells j ∧ (π.target j = e ∨ π.owner j a = e) := by
  unfold touches
  by_cases h : π.target j = e
  · simp [h]
  · simp [h]

theorem mem_cells_of_mem_touches (h : a ∈ π.touches e j) : a ∈ π.cells j := (mem_touches.mp h).1

omit [DecidableEq E] in
theorem owner_succ_of_mem (h : a ∈ π.cells j) : π.owner (j + 1) a = π.target j := by
  simp [owner, h]

omit [DecidableEq A] [DecidableEq E] in
theorem Clear.mono {i' j' : ℕ} (h : π.Clear a i j) (hi : i ≤ i') (hj : j' ≤ j) :
    π.Clear a i' j' := fun m hm hm' => h m (hi.trans hm) (hm'.trans_le hj)

omit [DecidableEq A] [DecidableEq E] in
/-- What only the jobs on a cell change is the same before and after a clear stretch. -/
theorem Clear.eq {β : Type} {f : ℕ → A → β} (hf : ∀ j a, a ∉ π.cells j → f (j + 1) a = f j a)
    (h : π.Clear a i j) (hij : i ≤ j) : f j a = f i a := by
  induction j, hij using Nat.le_induction with
  | base => rfl
  | succ j hij ih =>
      rw [hf j a (h j hij (Nat.lt_succ_self j))]
      exact ih (h.mono le_rfl (Nat.le_succ j))

omit [DecidableEq E] in
theorem Clear.owner (h : π.Clear a i j) (hij : i ≤ j) : π.owner j a = π.owner i a :=
  h.eq (fun j a hna => by simp [Plan.owner, hna]) hij

omit [DecidableEq E] in
/-- The first job on the cell from `i` on, below a job on it. -/
theorem exists_first (hij : i ≤ j) (hj : a ∈ π.cells j) :
    ∃ m, i ≤ m ∧ m ≤ j ∧ a ∈ π.cells m ∧ π.Clear a i m := by
  classical
  have hex : ∃ m, i ≤ m ∧ a ∈ π.cells m := ⟨j, hij, hj⟩
  refine ⟨Nat.find hex, (Nat.find_spec hex).1, Nat.find_min' hex ⟨hij, hj⟩,
    (Nat.find_spec hex).2, ?_⟩
  intro m him hm hmem
  exact Nat.find_min hex hm ⟨him, hmem⟩

omit [DecidableEq E] in
/-- The last job on the cell below `j`, from a job on it. -/
theorem exists_last (hij : i < j) (hi : a ∈ π.cells i) :
    ∃ m, i ≤ m ∧ m < j ∧ a ∈ π.cells m ∧ π.Clear a (m + 1) j := by
  induction j, hij using Nat.le_induction with
  | base => exact ⟨i, le_rfl, Nat.lt_succ_self i, hi, fun m hm hm' => absurd hm (by omega)⟩
  | succ j hij ih =>
      by_cases hj : a ∈ π.cells j
      · exact ⟨j, by omega, Nat.lt_succ_self j, hj, fun m hm hm' => absurd hm (by omega)⟩
      · obtain ⟨m, him, hmj, hm, hclear⟩ := ih
        refine ⟨m, him, by omega, hm, fun k hk hkj hmem => ?_⟩
        rcases Nat.lt_succ_iff_lt_or_eq.mp hkj with hlt | rfl
        · exact hclear k hk hlt hmem
        · exact hj hmem

end Plan

/-- Where the state of a cell is. -/
inductive Loc (E : Type)
  | store (e : E)
  | moving (j : ℕ)
deriving DecidableEq

structure State (A E : Type) where
  /-- The jobs that each site has taken. -/
  taken : E → ℕ
  /-- The jobs that each site holds back. -/
  held : E → List ℕ
  /-- What has run on a cell: its jobs below this one. -/
  front : A → ℕ
  loc : A → Loc E

namespace State

variable (π : Plan A E) (s : State A E)

/-- The site has taken the job and is through with it. -/
def Done (e : E) (j : ℕ) : Prop := j < s.taken e ∧ j ∉ s.held e

/-- No earlier job that the site holds back has a cell in common with `j`. -/
def Head (e : E) (j : ℕ) : Prop :=
  ∀ i ∈ s.held e, i < j → ∀ a ∈ π.touches e j, a ∉ π.touches e i

/-- The cells that concern the site are in its store. -/
def Present (e : E) (j : ℕ) : Prop := ∀ a ∈ π.touches e j, s.loc a = .store e

/-- The cells are in the store of the site, or on their way to it for this job. -/
def Arrived (e : E) (j : ℕ) : Prop :=
  ∀ a ∈ π.cells j, (π.owner j a = e → s.loc a = .store e) ∧
    (π.owner j a ≠ e → s.loc a = .moving j)

/-- The site has nothing to do with the next job. -/
def skip (e : E) : State A E :=
  { s with taken := Function.update s.taken e (s.taken e + 1) }

/-- The site takes the next job and holds it back. -/
def hold (e : E) : State A E :=
  { s with
    taken := Function.update s.taken e (s.taken e + 1)
    held := Function.update s.held e (s.held e ++ [s.taken e]) }

/-- The site runs a job that it holds back. -/
def run (e : E) (j : ℕ) : State A E :=
  { s with
    held := Function.update s.held e ((s.held e).erase j)
    front := fun a => if a ∈ π.cells j then j + 1 else s.front a
    loc := fun a => if a ∈ π.cells j then .store e else s.loc a }

/-- The site releases its cells of a job that it holds back. -/
def release (e : E) (j : ℕ) : State A E :=
  { s with
    held := Function.update s.held e ((s.held e).erase j)
    loc := fun a => if a ∈ π.touches e j then .moving j else s.loc a }

/-- The initial state. -/
def initial : State A E := ⟨fun _ => 0, fun _ => [], fun _ => 0, fun a => .store (π.home a)⟩

/-- The invariant. -/
structure Inv : Prop where
  sorted : ∀ e, (s.held e).Pairwise (· < ·)
  lt : ∀ e, ∀ j ∈ s.held e, j < s.taken e
  touch : ∀ e, ∀ j ∈ s.held e, π.touches e j ≠ []
  /-- The jobs that ran on a cell are those below its front. -/
  ran : ∀ j, ∀ a ∈ π.cells j, (s.Done (π.target j) j ↔ j < s.front a)
  /-- The owner of a cell is through with those and with the one it is released for. -/
  released : ∀ j, ∀ a ∈ π.cells j,
    (s.Done (π.owner j a) j ↔ j < s.front a ∨ s.loc a = .moving j)
  store : ∀ a e, s.loc a = .store e → π.owner (s.front a) a = e
  moving : ∀ a j, s.loc a = .moving j →
    a ∈ π.cells j ∧ s.front a ≤ j ∧ π.Clear a (s.front a) j ∧ π.owner j a ≠ π.target j

variable {π s} {a : A} {e e' : E} {i j : ℕ}

theorem Inv.initial (π : Plan A E) : Inv π (State.initial π) where
  sorted _ := List.Pairwise.nil
  lt _ _ h := absurd h (List.not_mem_nil)
  touch _ _ h := absurd h (List.not_mem_nil)
  ran j a _ := by simp [Done, State.initial]
  released j a _ := by simp [Done, State.initial]
  store a e h := by
    simp only [State.initial, Loc.store.injEq] at h
    exact h
  moving a j h := by simp [State.initial] at h

/-- What is held back has not run on its cells. -/
theorem Inv.front_le (hi : Inv π s) (hj : j ∈ s.held e) (ha : a ∈ π.touches e j) :
    s.front a ≤ j := by
  obtain ⟨hmem, hor⟩ := Plan.mem_touches.mp ha
  have hnot : ¬ s.Done e j := fun hd => hd.2 hj
  by_contra hlt
  rcases hor with rfl | rfl
  · exact hnot ((hi.ran j a hmem).mpr (by omega))
  · exact hnot ((hi.released j a hmem).mpr (Or.inl (by omega)))

/-- A cell in the store of the site that is through with every earlier job on it: nothing
    is left to run on it before `j`. -/
theorem Inv.clear_of_head (hi : Inv π s) (hj : j ∈ s.held e) (hhead : s.Head π e j)
    (ha : a ∈ π.touches e j) (hloc : s.loc a = .store e) : π.Clear a (s.front a) j := by
  intro m hfm hmj hmem
  -- the first job on the cell is held back by its owner, which is this site
  obtain ⟨i, hfi, him, hmemi, hclear⟩ := Plan.exists_first hfm hmem
  have howner : π.owner i a = e := by
    rw [hclear.owner hfi]
    exact hi.store a e hloc
  have htouch : a ∈ π.touches e i := Plan.mem_touches.mpr ⟨hmemi, Or.inr howner⟩
  have hnot : ¬ s.Done e i := by
    rw [← howner, hi.released i a hmemi, hloc]
    simp
    omega
  have hheld : i ∈ s.held e := by
    by_contra hnh
    have := hi.lt e j hj
    exact hnot ⟨by omega, hnh⟩
  exact hhead i hheld (by omega) a ha htouch

/-- At the head of the queues of its owner a job finds the cell there. -/
theorem Inv.present_of_head (hi : Inv π s) (hj : j ∈ s.held e) (hhead : s.Head π e j)
    (ha : a ∈ π.cells j) (ho : π.owner j a = e) : s.loc a = .store e := by
  have htouch : a ∈ π.touches e j := Plan.mem_touches.mpr ⟨ha, Or.inr ho⟩
  have hle := hi.front_le hj htouch
  have hclear : π.Clear a (s.front a) j := by
    intro m hfm hmj hmem
    -- the last job before this one brought the cell here, so it has run
    obtain ⟨k, hmk, hkj, hk, hrest⟩ := Plan.exists_last hmj hmem
    have htarget : π.target k = e := by
      rw [← ho, hrest.owner hkj, Plan.owner_succ_of_mem hk]
    have hnot : k ∉ s.held e := fun hheld =>
      hhead k hheld hkj a htouch (Plan.mem_touches.mpr ⟨hk, Or.inl htarget⟩)
    have hdone : s.Done (π.target k) k := by
      rw [htarget]
      have := hi.lt e j hj
      exact ⟨by omega, hnot⟩
    have := (hi.ran k a hk).mp hdone
    omega
  cases hl : s.loc a with
  | store e' => rw [← hi.store a e' hl, ← hclear.owner hle, ho]
  | moving k =>
      obtain ⟨hk, hfk, hck, -⟩ := hi.moving a k hl
      rcases Nat.lt_trichotomy k j with hkj | rfl | hjk
      · exact absurd hk (hclear k hfk hkj)
      · have hdone := (hi.released k a ha).mpr (Or.inr hl)
        rw [ho] at hdone
        exact absurd hj hdone.2
      · exact absurd ha (hck j hle hjk)

/-- A cell that has arrived for a job has no other job to run before. -/
theorem Inv.clear_of_arrived (hi : Inv π s) (hj : j ∈ s.held e) (hhead : s.Head π e j)
    (he : π.target j = e) (harr : s.Arrived π e j) (ha : a ∈ π.cells j) :
    π.Clear a (s.front a) j := by
  by_cases ho : π.owner j a = e
  · exact hi.clear_of_head hj hhead (Plan.mem_touches.mpr ⟨ha, Or.inl he⟩) ((harr a ha).1 ho)
  · exact (hi.moving a j ((harr a ha).2 ho)).2.2.1

/-! ## Steps -/

omit [DecidableEq A] in
theorem done_skip : (s.skip e).Done e' j ↔ s.Done e' j ∨ e' = e ∧ j = s.taken e ∧ j ∉ s.held e := by
  unfold Done skip
  by_cases h : e' = e
  · subst h
    simp only [Function.update_self, true_and]
    constructor
    · rintro ⟨hlt, hnot⟩
      rcases Nat.lt_succ_iff_lt_or_eq.mp hlt with hlt | rfl
      · exact Or.inl ⟨hlt, hnot⟩
      · exact Or.inr ⟨rfl, hnot⟩
    · rintro (⟨hlt, hnot⟩ | ⟨rfl, hnot⟩)
      · exact ⟨by omega, hnot⟩
      · exact ⟨by omega, hnot⟩
  · simp [h]

omit [DecidableEq A] in
theorem done_hold : (s.hold e).Done e' j ↔ s.Done e' j := by
  unfold Done hold
  by_cases h : e' = e
  · subst h
    simp only [Function.update_self, List.mem_append, List.mem_singleton]
    constructor
    · rintro ⟨hlt, hnot⟩
      push Not at hnot
      exact ⟨by omega, hnot.1⟩
    · rintro ⟨hlt, hnot⟩
      refine ⟨by omega, ?_⟩
      rintro (hmem | rfl)
      · exact hnot hmem
      · exact absurd hlt (lt_irrefl _)
  · simp [h]

omit [DecidableEq A] in
/-- What is through after a job is taken out of those held back. -/
theorem done_erase {t : State A E} (hs : (s.held e).Pairwise (· < ·)) (hj : j ∈ s.held e)
    (hlt : j < s.taken e) (htaken : t.taken = s.taken)
    (hheld : t.held = Function.update s.held e ((s.held e).erase j)) :
    t.Done e' i ↔ s.Done e' i ∨ e' = e ∧ i = j := by
  unfold Done
  rw [htaken, hheld]
  by_cases h : e' = e
  · subst h
    have hnodup : (s.held e').Nodup := hs.imp ne_of_lt
    rw [Function.update_self, hnodup.mem_erase_iff]
    by_cases hij : i = j
    · subst hij
      simp [hlt]
    · simp [hij]
  · simp [h]

omit [DecidableEq A] in
theorem mem_held_hold : i ∈ (s.hold e).held e' ↔ i ∈ s.held e' ∨ e' = e ∧ i = s.taken e := by
  unfold hold
  by_cases h : e' = e
  · subst h
    simp
  · simp [h]

theorem Inv.skip (hi : Inv π s) (ht : π.touches e (s.taken e) = []) : Inv π (s.skip e) where
  sorted := hi.sorted
  lt e' j hj := by
    have := hi.lt e' j hj
    unfold State.skip
    by_cases h : e' = e
    · subst h
      simp only [Function.update_self]
      omega
    · simpa [h] using this
  touch := hi.touch
  ran j a ha := by
    show _ ↔ j < s.front a
    rw [done_skip, ← hi.ran j a ha]
    refine ⟨fun h => h.resolve_right ?_, Or.inl⟩
    rintro ⟨he, rfl, -⟩
    exact List.ne_nil_of_mem (Plan.mem_touches.mpr ⟨ha, Or.inl he⟩) ht
  released j a ha := by
    show _ ↔ j < s.front a ∨ s.loc a = .moving j
    rw [done_skip, ← hi.released j a ha]
    refine ⟨fun h => h.resolve_right ?_, Or.inl⟩
    rintro ⟨he, rfl, -⟩
    exact List.ne_nil_of_mem (Plan.mem_touches.mpr ⟨ha, Or.inr he⟩) ht
  store := hi.store
  moving := hi.moving

theorem Inv.hold (hi : Inv π s) (ht : π.touches e (s.taken e) ≠ []) : Inv π (s.hold e) where
  sorted e' := by
    unfold State.hold
    by_cases h : e' = e
    · subst h
      simp only [Function.update_self, List.pairwise_append]
      refine ⟨hi.sorted e', List.pairwise_singleton _ _, ?_⟩
      intro i hmem k hk
      rw [List.mem_singleton.mp hk]
      exact hi.lt e' i hmem
    · simpa [h] using hi.sorted e'
  lt e' j hj := by
    rcases mem_held_hold.mp hj with hj | ⟨rfl, rfl⟩
    · have := hi.lt e' j hj
      unfold State.hold
      by_cases h : e' = e
      · subst h
        simp only [Function.update_self]
        omega
      · simpa [h] using this
    · simp [State.hold]
  touch e' j hj := by
    rcases mem_held_hold.mp hj with hj | ⟨rfl, rfl⟩
    · exact hi.touch e' j hj
    · exact ht
  ran j a ha := by
    rw [done_hold]
    exact hi.ran j a ha
  released j a ha := by
    rw [done_hold]
    exact hi.released j a ha
  store := hi.store
  moving := hi.moving

omit [DecidableEq A] in
theorem mem_of_mem_update_erase {e' : E} {j k : ℕ}
    (hk : k ∈ Function.update s.held e ((s.held e).erase j) e') : k ∈ s.held e' := by
  by_cases h : e' = e
  · subst h
    rw [Function.update_self] at hk
    exact List.mem_of_mem_erase hk
  · rwa [Function.update_of_ne h] at hk

theorem Inv.sorted_erase (hi : Inv π s) (e' : E) :
    (Function.update s.held e ((s.held e).erase j) e').Pairwise (· < ·) := by
  by_cases h : e' = e
  · subst h
    rw [Function.update_self]
    exact (hi.sorted e').sublist List.erase_sublist
  · rw [Function.update_of_ne h]
    exact hi.sorted e'

theorem Inv.run (hi : Inv π s) (hj : j ∈ s.held e) (he : π.target j = e)
    (hhead : s.Head π e j) (harr : s.Arrived π e j) : Inv π (s.run π e j) := by
  have hdone : ∀ e' i, (s.run π e j).Done e' i ↔ s.Done e' i ∨ e' = e ∧ i = j := fun e' i =>
    done_erase (hi.sorted e) hj (hi.lt e j hj) rfl rfl
  have hfront : ∀ a ∈ π.cells j, s.front a ≤ j := fun a ha =>
    hi.front_le hj (Plan.mem_touches.mpr ⟨ha, Or.inl he⟩)
  have hclear : ∀ a ∈ π.cells j, π.Clear a (s.front a) j := fun a ha =>
    hi.clear_of_arrived hj hhead he harr ha
  refine ⟨hi.sorted_erase, fun e' k hk => hi.lt e' k (mem_of_mem_update_erase hk),
    fun e' k hk => hi.touch e' k (mem_of_mem_update_erase hk), ?_, ?_, ?_, ?_⟩
  · intro k a ha
    show _ ↔ k < if a ∈ π.cells j then j + 1 else s.front a
    rw [hdone, hi.ran k a ha]
    by_cases haj : a ∈ π.cells j
    · have hle := hfront a haj
      have hno := hclear a haj k
      rw [if_pos haj]
      constructor
      · rintro (hlt | ⟨-, rfl⟩)
        · omega
        · omega
      · intro hlt
        by_cases hkj : k = j
        · exact Or.inr ⟨by rw [hkj, he], hkj⟩
        · exact Or.inl (by_contra fun hge => hno (by omega) (by omega) ha)
    · have hkj : k ≠ j := fun h => haj (h ▸ ha)
      rw [if_neg haj]
      simp [hkj]
  · intro k a ha
    show _ ↔ (k < if a ∈ π.cells j then j + 1 else s.front a) ∨
      (if a ∈ π.cells j then .store e else s.loc a) = .moving k
    rw [hdone, hi.released k a ha]
    by_cases haj : a ∈ π.cells j
    · have hle := hfront a haj
      have hno := hclear a haj k
      rw [if_pos haj, if_pos haj]
      constructor
      · rintro ((hlt | hmov) | ⟨-, rfl⟩)
        · exact Or.inl (by omega)
        · have hne : π.owner j a ≠ e := fun ho => by simp [(harr a haj).1 ho] at hmov
          have hjk := ((harr a haj).2 hne).symm.trans hmov
          simp only [Loc.moving.injEq] at hjk
          exact Or.inl (by omega)
        · exact Or.inl (by omega)
      · rintro (hlt | hmov)
        · by_cases hkj : k = j
          · subst hkj
            by_cases ho : π.owner k a = e
            · exact Or.inr ⟨ho, rfl⟩
            · exact Or.inl (Or.inr ((harr a haj).2 ho))
          · exact Or.inl (Or.inl (by_contra fun hge => hno (by omega) (by omega) ha))
        · simp at hmov
    · have hkj : k ≠ j := fun h => haj (h ▸ ha)
      rw [if_neg haj, if_neg haj]
      simp [hkj]
  · intro a e' hloc
    by_cases haj : a ∈ π.cells j
    · simp only [State.run, if_pos haj, Loc.store.injEq] at hloc ⊢
      rw [Plan.owner_succ_of_mem haj, he, hloc]
    · simp only [State.run, if_neg haj] at hloc ⊢
      exact hi.store a e' hloc
  · intro a k hloc
    by_cases haj : a ∈ π.cells j
    · simp [State.run, haj] at hloc
    · simp only [State.run, if_neg haj] at hloc ⊢
      exact hi.moving a k hloc

theorem Inv.release (hi : Inv π s) (hj : j ∈ s.held e) (he : π.target j ≠ e)
    (hhead : s.Head π e j) (hpres : s.Present π e j) : Inv π (s.release π e j) := by
  have hdone : ∀ e' i, (s.release π e j).Done e' i ↔ s.Done e' i ∨ e' = e ∧ i = j := fun e' i =>
    done_erase (hi.sorted e) hj (hi.lt e j hj) rfl rfl
  refine ⟨hi.sorted_erase, fun e' k hk => hi.lt e' k (mem_of_mem_update_erase hk),
    fun e' k hk => hi.touch e' k (mem_of_mem_update_erase hk), ?_, ?_, ?_, ?_⟩
  · intro k a ha
    show _ ↔ k < s.front a
    rw [hdone, hi.ran k a ha]
    refine ⟨fun h => h.resolve_right ?_, Or.inl⟩
    rintro ⟨ht, rfl⟩
    exact he ht
  · intro k a ha
    show _ ↔ k < s.front a ∨ (if a ∈ π.touches e j then .moving j else s.loc a) = .moving k
    rw [hdone, hi.released k a ha]
    by_cases haj : a ∈ π.touches e j
    · rw [if_pos haj, hpres a haj]
      have ho : π.owner j a = e := (Plan.mem_touches.mp haj).2.resolve_left he
      simp only [reduceCtorEq, or_false, Loc.moving.injEq]
      constructor
      · rintro (hlt | ⟨-, rfl⟩)
        · exact Or.inl hlt
        · exact Or.inr rfl
      · rintro (hlt | rfl)
        · exact Or.inl hlt
        · exact Or.inr ⟨ho, rfl⟩
    · rw [if_neg haj]
      refine ⟨fun h => h.resolve_right ?_, Or.inl⟩
      rintro ⟨ho, rfl⟩
      exact haj (Plan.mem_touches.mpr ⟨ha, Or.inr ho⟩)
  · intro a e' hloc
    by_cases haj : a ∈ π.touches e j
    · simp [State.release, haj] at hloc
    · simp only [State.release, if_neg haj] at hloc ⊢
      exact hi.store a e' hloc
  · intro a k hloc
    by_cases haj : a ∈ π.touches e j
    · simp only [State.release, if_pos haj, Loc.moving.injEq] at hloc ⊢
      subst hloc
      obtain ⟨hmem, hor⟩ := Plan.mem_touches.mp haj
      refine ⟨hmem, hi.front_le hj haj, hi.clear_of_head hj hhead haj (hpres a haj), ?_⟩
      rw [hor.resolve_left he]
      exact Ne.symm he
    · simp only [State.release, if_neg haj] at hloc ⊢
      exact hi.moving a k hloc

/-! ## Nothing left to run -/

/-- The site can deal with the job out of its own store. -/
def Runnable (π : Plan A E) (s : State A E) (e : E) (j : ℕ) : Prop :=
  j ∈ s.held e ∧ s.Head π e j ∧ s.Present π e j

/-- Every job that the site can deal with is on one of the cells. -/
def IdleBut (π : Plan A E) (s : State A E) (e : E) (cells : A → Prop) : Prop :=
  ∀ j, s.Runnable π e j → ∃ a ∈ π.touches e j, cells a

/-- There is no job that the site can deal with out of its own store. -/
def Idle (π : Plan A E) (s : State A E) (e : E) : Prop := ∀ j, ¬ s.Runnable π e j

theorem idleBut_false : s.IdleBut π e (fun _ => False) ↔ s.Idle π e := by
  unfold IdleBut Idle
  refine forall_congr' fun j => ⟨fun h hr => ?_, fun h hr => absurd hr h⟩
  obtain ⟨a, -, hf⟩ := h hr
  exact hf

theorem IdleBut.mono {cells cells' : A → Prop} (h : s.IdleBut π e cells)
    (hsub : ∀ a, cells a → cells' a) : s.IdleBut π e cells' := by
  intro j hr
  obtain ⟨a, ha, hc⟩ := h j hr
  exact ⟨a, ha, hsub a hc⟩

/-- Taking a job makes no other job one that can be dealt with. -/
theorem Runnable.of_hold (h : (s.hold e').Runnable π e i) :
    s.Runnable π e i ∨ e = e' ∧ i = s.taken e := by
  obtain ⟨hmem, hhead, hpres⟩ := h
  rcases mem_held_hold.mp hmem with hmem | ⟨rfl, rfl⟩
  · refine Or.inl ⟨hmem, fun k hk => hhead k ?_, hpres⟩
    exact mem_held_hold.mpr (Or.inl hk)
  · exact Or.inr ⟨rfl, rfl⟩

/-- Released cells are gone, so releasing them makes no job one that can be dealt with. -/
theorem Runnable.of_release (hi : Inv π s) (h : (s.release π e j).Runnable π e i) :
    s.Runnable π e i := by
  obtain ⟨hmem, hhead, hpres⟩ := h
  have hgone : ∀ a ∈ π.touches e i, a ∉ π.touches e j := by
    intro a ha haj
    have := hpres a ha
    simp [State.release, haj] at this
  refine ⟨mem_of_mem_update_erase hmem, fun k hk hki a ha hak => ?_, fun a ha => ?_⟩
  · by_cases hkj : k = j
    · exact hgone a ha (hkj ▸ hak)
    · refine hhead k ?_ hki a ha hak
      have hnodup : (s.held e).Nodup := (hi.sorted e).imp ne_of_lt
      simp [State.release, hnodup.mem_erase_iff, hkj, hk]
  · have := hpres a ha
    simpa [State.release, hgone a ha] using this

/-- After a job ran, what can be dealt with in addition is on one of its cells. -/
theorem Runnable.of_run (hi : Inv π s) (h : (s.run π e j).Runnable π e i) :
    s.Runnable π e i ∨ ∃ a ∈ π.touches e i, a ∈ π.cells j := by
  by_cases hcommon : ∃ a ∈ π.touches e i, a ∈ π.cells j
  · exact Or.inr hcommon
  · push Not at hcommon
    obtain ⟨hmem, hhead, hpres⟩ := h
    refine Or.inl ⟨mem_of_mem_update_erase hmem, fun k hk hki a ha hak => ?_, fun a ha => ?_⟩
    · by_cases hkj : k = j
      · exact hcommon a ha (Plan.mem_cells_of_mem_touches (hkj ▸ hak))
      · refine hhead k ?_ hki a ha hak
        have hnodup : (s.held e).Nodup := (hi.sorted e).imp ne_of_lt
        simp [State.run, hnodup.mem_erase_iff, hkj, hk]
    · have := hpres a ha
      simpa [State.run, hcommon a ha] using this

/-! ## The steps of one site -/

inductive Step (π : Plan A E) (e : E) : State A E → State A E → Prop
  | skip {s : State A E} (ht : π.touches e (s.taken e) = []) : Step π e s (s.skip e)
  | hold {s : State A E} (ht : π.touches e (s.taken e) ≠ []) : Step π e s (s.hold e)
  | run {s : State A E} {j : ℕ} (hj : j ∈ s.held e) (he : π.target j = e) (hhead : s.Head π e j)
      (harr : s.Arrived π e j) : Step π e s (s.run π e j)
  | release {s : State A E} {j : ℕ} (hj : j ∈ s.held e) (he : π.target j ≠ e)
      (hhead : s.Head π e j) (hpres : s.Present π e j) : Step π e s (s.release π e j)

abbrev Steps (π : Plan A E) (e : E) : State A E → State A E → Prop :=
  Relation.ReflTransGen (Step π e)

theorem Inv.step {t : State A E} (hi : Inv π s) (h : Step π e s t) : Inv π t := by
  cases h with
  | skip ht => exact hi.skip ht
  | hold ht => exact hi.hold ht
  | run hj he hhead harr => exact hi.run hj he hhead harr
  | release hj he hhead hpres => exact hi.release hj he hhead hpres

/-- The two states are the same for the site. -/
structure Same (e : E) (s t : State A E) : Prop where
  taken : t.taken e = s.taken e
  held : t.held e = s.held e
  store : ∀ a, t.loc a = .store e ↔ s.loc a = .store e
  front : ∀ a, s.loc a = .store e → t.front a = s.front a

/-- A step of another site changes nothing for this one. -/
theorem Step.same {t : State A E} (h : Step π e s t) (hne : e' ≠ e) : Same e' s t := by
  cases h with
  | skip ht => exact ⟨Function.update_of_ne hne _ _, rfl, fun _ => Iff.rfl, fun _ _ => rfl⟩
  | hold ht =>
      exact ⟨Function.update_of_ne hne _ _, Function.update_of_ne hne _ _, fun _ => Iff.rfl,
        fun _ _ => rfl⟩
  | @run j hj he hhead harr =>
      -- the cells are with the site or on their way
      have hnot : ∀ a ∈ π.cells j, s.loc a ≠ .store e' := by
        intro a ha hl
        by_cases ho : π.owner j a = e
        · rw [(harr a ha).1 ho, Loc.store.injEq] at hl
          exact hne hl.symm
        · rw [(harr a ha).2 ho] at hl
          cases hl
      refine ⟨rfl, Function.update_of_ne hne _ _, fun a => ?_, fun a ha => ?_⟩
      · by_cases haj : a ∈ π.cells j
        · simp [State.run, haj, hnot a haj, Ne.symm hne]
        · simp [State.run, haj]
      · have haj : a ∉ π.cells j := fun h => hnot a h ha
        simp [State.run, haj]
  | @release j hj he hhead hpres =>
      refine ⟨rfl, Function.update_of_ne hne _ _, fun a => ?_, fun _ _ => rfl⟩
      by_cases haj : a ∈ π.touches e j
      · simp [State.release, haj, hpres a haj, Ne.symm hne]
      · simp [State.release, haj]

omit [DecidableEq A] [DecidableEq E] in
theorem Same.trans {t u : State A E} (h : Same e s t) (h' : Same e t u) : Same e s u :=
  ⟨h'.taken.trans h.taken, h'.held.trans h.held, fun a => (h'.store a).trans (h.store a),
    fun a ha => (h'.front a ((h.store a).mpr ha)).trans (h.front a ha)⟩

theorem Steps.same {t : State A E} (h : Steps π e s t) (hne : e' ≠ e) : Same e' s t := by
  induction h with
  | refl => exact ⟨rfl, rfl, fun _ => Iff.rfl, fun _ _ => rfl⟩
  | tail _ hstep ih => exact ih.trans (hstep.same hne)

theorem Same.idle {t : State A E} (h : Same e s t) (hidle : s.Idle π e) : t.Idle π e := by
  rintro j ⟨hmem, hhead, hpres⟩
  unfold Head at hhead
  rw [h.held] at hmem hhead
  exact hidle j ⟨hmem, hhead, fun a ha => (h.store a).mp (hpres a ha)⟩

/-! ## Progress -/

/-- The first job that any site holds back can be dealt with: it is at the head
    everywhere, and each of its cells is with its owner, or released. -/
theorem Inv.progress (hi : Inv π s) {n : ℕ} (hle : ∀ e, ∀ j ∈ s.held e, j < n)
    (htarget : ∀ j < n, s.taken (π.target j) = n)
    (howner : ∀ j < n, ∀ a ∈ π.cells j, s.taken (π.owner j a) = n)
    (hne : ∃ e, s.held e ≠ []) :
    ∃ e j, j ∈ s.held e ∧ s.Head π e j ∧
      (π.target j = e ∧ s.Arrived π e j ∨ π.target j ≠ e ∧ s.Present π e j) := by
  classical
  have hex : ∃ j e, j ∈ s.held e := by
    obtain ⟨e, he⟩ := hne
    obtain ⟨j, hj⟩ := List.exists_mem_of_ne_nil _ he
    exact ⟨j, e, hj⟩
  let j := Nat.find hex
  have hmin : ∀ i < j, ∀ e, i ∉ s.held e := fun i hij e hmem => Nat.find_min hex hij ⟨e, hmem⟩
  have hjn : j < n := by
    obtain ⟨e, he⟩ := Nat.find_spec hex
    exact hle e j he
  have hhead : ∀ e, s.Head π e j := fun e i hmem hij => absurd hmem (hmin i hij e)
  -- everything before has run
  have hran : ∀ i < j, ∀ a ∈ π.cells i, i < s.front a := by
    intro i hij a ha
    rw [← hi.ran i a ha]
    exact ⟨by rw [htarget i (by omega)]; omega, hmin i hij _⟩
  -- the job itself has not
  have hheld : j ∈ s.held (π.target j) := by
    by_contra hnot
    have hd : s.Done (π.target j) j := ⟨by rw [htarget j hjn]; exact hjn, hnot⟩
    obtain ⟨e, he⟩ := Nat.find_spec hex
    obtain ⟨a, ha⟩ := List.exists_mem_of_ne_nil _ (hi.touch e j he)
    have hlt := (hi.ran j a (Plan.mem_cells_of_mem_touches ha)).mp hd
    have := hi.front_le he ha
    omega
  have hfront : ∀ a ∈ π.cells j, s.front a ≤ j := fun a ha =>
    hi.front_le hheld (Plan.mem_touches.mpr ⟨ha, Or.inl rfl⟩)
  have hclear : ∀ a, π.Clear a (s.front a) j := by
    intro a m hm hmj hmem
    have := hran m hmj a hmem
    omega
  have hloc : ∀ a ∈ π.cells j, s.loc a = .store (π.owner j a) ∨ s.loc a = .moving j := by
    intro a ha
    cases hl : s.loc a with
    | store e =>
        rw [(hclear a).owner (hfront a ha), hi.store a e hl]
        exact Or.inl rfl
    | moving m =>
        obtain ⟨hmem, hfm, hcm, -⟩ := hi.moving a m hl
        rcases Nat.lt_trichotomy m j with hmj | rfl | hjm
        · exact absurd hmem (hclear a m hfm hmj)
        · exact Or.inr rfl
        · exact absurd ha (hcm j (hfront a ha) hjm)
  by_cases hstay : ∃ a ∈ π.cells j, π.owner j a ≠ π.target j ∧ s.loc a = .store (π.owner j a)
  · obtain ⟨a, ha, hoa, hla⟩ := hstay
    have hheldo : j ∈ s.held (π.owner j a) := by
      by_contra hnot
      have hd : s.Done (π.owner j a) j := ⟨by rw [howner j hjn a ha]; exact hjn, hnot⟩
      have := hfront a ha
      rcases (hi.released j a ha).mp hd with hlt | hm
      · omega
      · simp [hla] at hm
    refine ⟨π.owner j a, j, hheldo, hhead _, Or.inr ⟨Ne.symm hoa, fun b hb => ?_⟩⟩
    obtain ⟨hbj, hor⟩ := Plan.mem_touches.mp hb
    have hob : π.owner j b = π.owner j a := hor.resolve_left (Ne.symm hoa)
    rcases hloc b hbj with hl | hl
    · rw [hl, hob]
    · have hd := (hi.released j b hbj).mpr (Or.inr hl)
      rw [hob] at hd
      exact absurd hheldo hd.2
  · push Not at hstay
    refine ⟨π.target j, j, hheld, hhead _, Or.inl ⟨rfl, fun a ha => ⟨fun ho => ?_, fun ho => ?_⟩⟩⟩
    · rcases hloc a ha with hl | hl
      · rw [hl, ho]
      · exact absurd ho (hi.moving a j hl).2.2.2
    · exact (hloc a ha).resolve_left (hstay a ha ho)

section Finished

variable (hi : Inv π s) {n : ℕ} (hheld : ∀ e, s.held e = []) (hle : ∀ e, s.taken e ≤ n)
  (htarget : ∀ j < n, s.taken (π.target j) = n)

include hi hheld hle htarget

/-- When nothing is held back every job has run. -/
theorem Inv.lt_front_iff {j : ℕ} {a : A} (ha : a ∈ π.cells j) : j < s.front a ↔ j < n := by
  rw [← hi.ran j a ha]
  constructor
  · intro hd
    exact lt_of_lt_of_le hd.1 (hle _)
  · intro hj
    exact ⟨by rw [htarget j hj]; exact hj, by rw [hheld]; exact List.not_mem_nil⟩

/-- When nothing is held back no cell is on its way. -/
theorem Inv.loc_eq_store (a : A) : ∃ e, s.loc a = .store e := by
  cases hl : s.loc a with
  | store e => exact ⟨e, rfl⟩
  | moving j =>
      obtain ⟨hmem, hfront, -, -⟩ := hi.moving a j hl
      have hd := (hi.released j a hmem).mpr (Or.inr hl)
      have hj : j < n := lt_of_lt_of_le hd.1 (hle _)
      have := (hi.lt_front_iff hheld hle htarget hmem).mpr hj
      omega

/-- When nothing is held back a cell is as after the last job. -/
theorem Inv.eq_front {β : Type} {f : ℕ → A → β}
    (hf : ∀ j a, a ∉ π.cells j → f (j + 1) a = f j a) (a : A) : f n a = f (s.front a) a := by
  rcases Nat.le_total (s.front a) n with hfn | hnf
  · refine Plan.Clear.eq hf (fun m hm hmn hmem => ?_) hfn
    have := (hi.lt_front_iff hheld hle htarget hmem).mpr hmn
    omega
  · refine (Plan.Clear.eq hf (fun m hm hmn hmem => ?_) hnf).symm
    have := (hi.lt_front_iff hheld hle htarget hmem).mp hmn
    omega

end Finished

end State

end Handover
