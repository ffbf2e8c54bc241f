/-
  Jobs over cells that stay with their sites.

  The cells of a job (`Handover.Plan`) may have different homes. The job runs at its target;
  the other sites lend it their cells and get them back when it has run. A site takes the
  jobs in order and holds back those that it cannot deal with yet. It deals with a held back
  job only if no earlier one that it holds back has a cell of the site in common with it.
  A cell is locked by the last job that was held back on it, until any job on it is done. A
  job with all its cells at one site runs only if no other job has locked one of them.

  `Inv` is what holds in every state: what ran on a cell is the initial segment
  `State.front` of the plan, and a site is through with a job that it lent cells to exactly
  if the job has run and the cells are back. `progress`: there is something to do, unless a
  job is stuck behind the lock of a later one. `stuck_hold_iff` says when a job gets stuck.
-/
import DagBft.Lib.Handover
import Mathlib.Data.Finset.Basic

namespace Loan

open Handover (Plan)

variable {A E : Type} [DecidableEq E]

/-- The cells of job `j` that are at home with the site. -/
def part (π : Plan A E) (e : E) (j : ℕ) : List A := (π.cells j).filter fun a => π.home a = e

/-- A job runs at the home of one of its cells. -/
def Proper (π : Plan A E) : Prop := ∀ j, π.cells j ≠ [] → part π (π.target j) j ≠ []

/-- No other site has cells of the job. -/
def Alone (π : Plan A E) (j : ℕ) : Prop := ∀ e, part π e j ≠ [] → e = π.target j

structure State (A E : Type) where
  /-- The jobs that each site has taken. -/
  taken : E → ℕ
  /-- The jobs that each site holds back. -/
  held : E → List ℕ
  /-- The jobs that each site has lent its cells to. -/
  lent : E → Finset ℕ
  /-- What has run on a cell: its jobs below this one. -/
  front : A → ℕ
  /-- The job that has locked a cell. -/
  lock : A → Option ℕ

variable {π : Plan A E} {a : A} {e e' : E} {i j n : ℕ}

theorem mem_part : a ∈ part π e j ↔ a ∈ π.cells j ∧ π.home a = e := by
  simp [part]

theorem mem_part_home (h : a ∈ π.cells j) : a ∈ part π (π.home a) j := mem_part.mpr ⟨h, rfl⟩

theorem part_home_ne_nil (h : a ∈ π.cells j) : part π (π.home a) j ≠ [] :=
  List.ne_nil_of_mem (mem_part_home h)

theorem cells_ne_nil (h : part π e j ≠ []) : π.cells j ≠ [] := by
  obtain ⟨a, ha⟩ := List.exists_mem_of_ne_nil _ h
  exact List.ne_nil_of_mem (mem_part.mp ha).1

/-- The cells of a job that runs alone are where it runs. -/
theorem Alone.home (h : Alone π j) (ha : a ∈ π.cells j) : π.home a = π.target j :=
  h _ (part_home_ne_nil ha)

namespace State

variable (π) (s : State A E)

/-- The site has taken the job and is through with it. -/
def Done (e : E) (j : ℕ) : Prop := j < s.taken e ∧ j ∉ s.held e

instance (e : E) (j : ℕ) : Decidable (s.Done e j) := inferInstanceAs (Decidable (_ ∧ _))

/-- No earlier job that the site holds back has a cell in common with `j`. -/
def Head (e : E) (j : ℕ) : Prop :=
  ∀ i ∈ s.held e, i < j → ∀ a ∈ part π e j, a ∉ part π e i

/-- The job is the first one that is held back on the cell. -/
def First (a : A) (j : ℕ) : Prop :=
  j ∈ s.held (π.home a) ∧ a ∈ π.cells j ∧ ∀ i ∈ s.held (π.home a), i < j → a ∉ π.cells i

/-- No other job has locked one of its cells. -/
def Free (j : ℕ) : Prop := ∀ a ∈ π.cells j, s.lock a = none ∨ s.lock a = some j

/-- A job that runs alone is the first one on a cell that another one has locked. -/
def Stuck : Prop := ∃ a i, s.First π a i ∧ Alone π i ∧ s.lock a ≠ none ∧ s.lock a ≠ some i

/-- The next job does not lock a cell on which one that runs alone is the first. -/
def Careful (e : E) : Prop := ∀ a ∈ part π e (s.taken e), ∀ i, s.First π a i → ¬ Alone π i

/-- Every other site has lent its cells to the job. -/
def Lent (e : E) (j : ℕ) : Prop := ∀ e', e' ≠ e → part π e' j ≠ [] → j ∈ s.lent e'

/-- The site has nothing to do with the next job. -/
def skip (e : E) : State A E :=
  { s with taken := Function.update s.taken e (s.taken e + 1) }

/-- The site takes the next job and holds it back. -/
def hold [DecidableEq A] (e : E) : State A E :=
  { s with
    taken := Function.update s.taken e (s.taken e + 1)
    held := Function.update s.held e (s.held e ++ [s.taken e])
    lock := fun a => if a ∈ part π e (s.taken e) then some (s.taken e) else s.lock a }

/-- The site lends its cells to a job. -/
def lend (e : E) (j : ℕ) : State A E :=
  { s with lent := Function.update s.lent e (insert j (s.lent e)) }

/-- The site is through with a job: it has run there, or its cells are back. -/
def finish [DecidableEq A] (e : E) (j : ℕ) : State A E :=
  { s with
    held := Function.update s.held e ((s.held e).erase j)
    lent := Function.update s.lent e ((s.lent e).erase j)
    front := fun a => if a ∈ part π e j then j + 1 else s.front a
    lock := fun a => if a ∈ part π e j then none else s.lock a }

/-- The initial state. -/
def initial : State A E := ⟨fun _ => 0, fun _ => [], fun _ => ∅, fun _ => 0, fun _ => none⟩

/-- The invariant. -/
structure Inv : Prop where
  sorted : ∀ e, (s.held e).Pairwise (· < ·)
  lt : ∀ e, ∀ j ∈ s.held e, j < s.taken e
  part : ∀ e, ∀ j ∈ s.held e, part π e j ≠ []
  /-- The jobs that ran on a cell are those below its front. -/
  front : ∀ j, ∀ a ∈ π.cells j, (s.Done (π.home a) j ↔ j < s.front a)
  lent : ∀ e, ∀ j ∈ s.lent e, j ∈ s.held e ∧ π.target j ≠ e ∧ s.Head π e j
  lock : ∀ a j, s.lock a = some j → j ∈ s.held (π.home a) ∧ a ∈ π.cells j
  /-- A job that has run was lent the cells of the other sites. -/
  ran : ∀ j, s.Done (π.target j) j → ∀ e, e ≠ π.target j → Loan.part π e j ≠ [] →
    j ∈ s.lent e ∨ s.Done e j
  /-- The cells come back after the job has run. -/
  back : ∀ j e, e ≠ π.target j → Loan.part π e j ≠ [] → s.Done e j → s.Done (π.target j) j

variable {π s}

theorem Inv.initial (π : Plan A E) : Inv π (State.initial (A := A) (E := E)) where
  sorted _ := List.Pairwise.nil
  lt _ _ h := absurd h List.not_mem_nil
  part _ _ h := absurd h List.not_mem_nil
  front j a _ := by simp [Done, State.initial]
  lent _ _ h := absurd h (Finset.notMem_empty _)
  lock _ _ h := by cases h
  ran j hd := absurd hd.1 (Nat.not_lt_zero j)
  back j e _ _ hd := absurd hd.1 (Nat.not_lt_zero j)

theorem Inv.nodup (hi : Inv π s) (e : E) : (s.held e).Nodup := (hi.sorted e).imp ne_of_lt

/-- What is held back has not run on the cells of the site. -/
theorem Inv.front_le (hi : Inv π s) (hj : j ∈ s.held e) (ha : a ∈ Loan.part π e j) :
    s.front a ≤ j := by
  obtain ⟨hmem, rfl⟩ := mem_part.mp ha
  by_contra hlt
  exact ((hi.front j a hmem).mpr (by omega)).2 hj

/-- Nothing is left to run on the cells of a job at the head before it. -/
theorem Inv.clear_of_head (hi : Inv π s) (hj : j ∈ s.held e) (hhead : s.Head π e j)
    (ha : a ∈ Loan.part π e j) : π.Clear a (s.front a) j := by
  intro m hfm hmj hmem
  obtain ⟨-, rfl⟩ := mem_part.mp ha
  have hnot : ¬ s.Done (π.home a) m := by
    rw [hi.front m a hmem]
    omega
  have hheld : m ∈ s.held (π.home a) := by
    by_contra hnh
    have := hi.lt _ j hj
    exact hnot ⟨by omega, hnh⟩
  exact hhead m hheld hmj a ha (mem_part_home hmem)

/-! ## Steps -/

theorem done_skip :
    (s.skip e).Done e' j ↔ s.Done e' j ∨ e' = e ∧ j = s.taken e ∧ j ∉ s.held e := by
  unfold Done skip
  by_cases h : e' = e
  · subst h
    simp only [Function.update_self, true_and, Nat.lt_succ_iff_lt_or_eq, or_and_right]
  · simp [h]

theorem done_lend : (s.lend e j).Done e' i ↔ s.Done e' i := Iff.rfl

theorem mem_lent_lend : i ∈ (s.lend e j).lent e' ↔ i ∈ s.lent e' ∨ e' = e ∧ i = j := by
  unfold lend
  by_cases h : e' = e
  · subst h
    simp [or_comm]
  · simp [h]

/-- Fewer jobs held back before it: a job at the head stays there. -/
theorem Head.mono {t : State A E} (h : s.Head π e j)
    (hsub : ∀ i ∈ t.held e, i < j → i ∈ s.held e) : t.Head π e j :=
  fun i hmem hij => h i (hsub i hmem hij) hij

theorem Inv.skip (hp : Proper π) (hi : Inv π s) (ht : Loan.part π e (s.taken e) = []) :
    Inv π (s.skip e) where
  sorted := hi.sorted
  lt e' j hj := by
    have := hi.lt e' j hj
    unfold State.skip
    by_cases h : e' = e
    · subst h
      simp only [Function.update_self]
      omega
    · simpa [h] using this
  part := hi.part
  front j a ha := by
    show _ ↔ j < s.front a
    rw [done_skip, ← hi.front j a ha]
    refine or_iff_left ?_
    rintro ⟨he, rfl, -⟩
    exact part_home_ne_nil ha (he ▸ ht)
  lent := hi.lent
  lock := hi.lock
  ran j hd e' hne hpart := by
    show j ∈ s.lent e' ∨ _
    rw [done_skip] at hd ⊢
    rcases hd with hd | ⟨he, rfl, -⟩
    · exact (hi.ran j hd e' hne hpart).imp_right Or.inl
    · have htarget := hp _ (cells_ne_nil hpart)
      rw [he] at htarget
      exact absurd ht htarget
  back j e' hne hpart hd := by
    rw [done_skip] at hd ⊢
    rcases hd with hd | ⟨rfl, rfl, -⟩
    · exact Or.inl (hi.back j e' hne hpart hd)
    · exact absurd ht hpart

theorem Inv.lend (hi : Inv π s) (hj : j ∈ s.held e) (he : π.target j ≠ e)
    (hhead : s.Head π e j) : Inv π (s.lend e j) where
  sorted := hi.sorted
  lt := hi.lt
  part := hi.part
  front := hi.front
  lent e' i hmem := by
    rcases mem_lent_lend.mp hmem with hmem | ⟨rfl, rfl⟩
    · exact hi.lent e' i hmem
    · exact ⟨hj, he, hhead⟩
  lock := hi.lock
  ran i hd e' hne hpart :=
    (hi.ran i hd e' hne hpart).imp_left fun h => mem_lent_lend.mpr (Or.inl h)
  back := hi.back

variable [DecidableEq A]



theorem done_hold : (s.hold π e).Done e' j ↔ s.Done e' j := by
  unfold Done hold
  by_cases h : e' = e
  · subst h
    simp only [Function.update_self, List.mem_append, List.mem_singleton, not_or]
    constructor
    · rintro ⟨hlt, hnot, hne⟩
      exact ⟨by omega, hnot⟩
    · rintro ⟨hlt, hnot⟩
      exact ⟨by omega, hnot, by omega⟩
  · simp [h]

theorem done_finish (hi : Inv π s) (hj : j ∈ s.held e) :
    (s.finish π e j).Done e' i ↔ s.Done e' i ∨ e' = e ∧ i = j := by
  unfold Done finish
  by_cases h : e' = e
  · subst h
    have hlt := hi.lt e' j hj
    simp only [Function.update_self, (hi.nodup e').mem_erase_iff]
    by_cases hij : i = j
    · subst hij
      simp [hlt]
    · simp [hij]
  · simp [h]

theorem mem_held_hold : i ∈ (s.hold π e).held e' ↔ i ∈ s.held e' ∨ e' = e ∧ i = s.taken e := by
  unfold hold
  by_cases h : e' = e
  · subst h
    simp
  · simp [h]

theorem mem_held_finish (hi : Inv π s) :
    i ∈ (s.finish π e j).held e' ↔ i ∈ s.held e' ∧ ¬ (e' = e ∧ i = j) := by
  unfold finish
  by_cases h : e' = e
  · subst h
    simp only [Function.update_self, (hi.nodup e').mem_erase_iff, true_and]
    exact and_comm
  · simp [h]

theorem mem_lent_finish :
    i ∈ (s.finish π e j).lent e' ↔ i ∈ s.lent e' ∧ ¬ (e' = e ∧ i = j) := by
  unfold finish
  by_cases h : e' = e
  · subst h
    simp [and_comm]
  · simp [h]

theorem Inv.hold (hi : Inv π s) (ht : Loan.part π e (s.taken e) ≠ []) : Inv π (s.hold π e) where
  sorted e' := by
    unfold State.hold
    by_cases h : e' = e
    · subst h
      simp only [Function.update_self, List.pairwise_append]
      refine ⟨hi.sorted e', List.pairwise_singleton _ _, fun i hmem k hk => ?_⟩
      rw [List.mem_singleton.mp hk]
      exact hi.lt e' i hmem
    · simpa [h] using hi.sorted e'
  lt e' j hj := by
    rcases mem_held_hold.mp hj with hj | ⟨rfl, rfl⟩
    · have := hi.lt e' j hj
      unfold State.hold
      by_cases h : e' = e
      · subst h
        simp only [Function.update_self]
        omega
      · simpa [h] using this
    · simp [State.hold]
  part e' j hj := by
    rcases mem_held_hold.mp hj with hj | ⟨rfl, rfl⟩
    · exact hi.part e' j hj
    · exact ht
  front j a ha := by
    rw [done_hold]
    exact hi.front j a ha
  lent e' j hj := by
    obtain ⟨hheld, htarget, hhead⟩ := hi.lent e' j hj
    refine ⟨mem_held_hold.mpr (Or.inl hheld), htarget, hhead.mono fun i hmem hij => ?_⟩
    refine (mem_held_hold.mp hmem).resolve_right ?_
    -- what is taken now comes after everything that is held back
    rintro ⟨rfl, rfl⟩
    have := hi.lt e' j hheld
    omega
  lock a j hl := by
    rw [mem_held_hold]
    unfold State.hold at hl
    dsimp only at hl
    split at hl
    · rename_i ha
      obtain rfl := Option.some.inj hl
      exact ⟨Or.inr ⟨(mem_part.mp ha).2, rfl⟩, (mem_part.mp ha).1⟩
    · exact ⟨Or.inl (hi.lock a j hl).1, (hi.lock a j hl).2⟩
  ran j hd e' hne hpart := by
    rw [done_hold] at hd ⊢
    exact hi.ran j hd e' hne hpart
  back j e' hne hpart hd := by
    rw [done_hold] at hd ⊢
    exact hi.back j e' hne hpart hd

/-- The site is through with a job at the head that has run everywhere it has to. -/
theorem Inv.finish (hi : Inv π s) (hj : j ∈ s.held e) (hhead : s.Head π e j)
    (hrun : π.target j = e → s.Lent π e j) (hback : π.target j ≠ e → s.Done (π.target j) j) :
    Inv π (s.finish π e j) where
  sorted e' := by
    unfold State.finish
    by_cases h : e' = e
    · subst h
      simp only [Function.update_self]
      exact (hi.sorted e').sublist List.erase_sublist
    · simpa [h] using hi.sorted e'
  lt e' i hmem := hi.lt e' i ((mem_held_finish hi).mp hmem).1
  part e' i hmem := hi.part e' i ((mem_held_finish hi).mp hmem).1
  front i a ha := by
    show _ ↔ i < if a ∈ Loan.part π e j then j + 1 else s.front a
    rw [done_finish hi hj]
    by_cases haj : a ∈ Loan.part π e j
    · have hle := hi.front_le hj haj
      have hclear := hi.clear_of_head hj hhead haj i
      obtain ⟨-, rfl⟩ := mem_part.mp haj
      rw [if_pos haj, hi.front i a ha]
      constructor
      · rintro (hlt | ⟨-, rfl⟩)
        · omega
        · omega
      · intro hlt
        by_contra hnot
        push Not at hnot
        exact hclear hnot.1 (by have := hnot.2 rfl; omega) ha
    · rw [if_neg haj, hi.front i a ha]
      refine or_iff_left ?_
      rintro ⟨he, rfl⟩
      exact haj (mem_part.mpr ⟨ha, he⟩)
  lent e' i hmem := by
    obtain ⟨hlent, hne⟩ := mem_lent_finish.mp hmem
    obtain ⟨hheld, htarget, hhead'⟩ := hi.lent e' i hlent
    exact ⟨(mem_held_finish hi).mpr ⟨hheld, hne⟩, htarget,
      hhead'.mono fun k hk _ => ((mem_held_finish hi).mp hk).1⟩
  lock a i hl := by
    rw [mem_held_finish hi]
    unfold State.finish at hl
    dsimp only at hl
    split at hl
    · cases hl
    · rename_i ha
      obtain ⟨hheld, hmem⟩ := hi.lock a i hl
      refine ⟨⟨hheld, ?_⟩, hmem⟩
      rintro ⟨he, rfl⟩
      exact ha (mem_part.mpr ⟨hmem, he⟩)
  ran i hd e' hne hpart := by
    rw [done_finish hi hj] at hd ⊢
    rw [mem_lent_finish]
    by_cases heq : e' = e ∧ i = j
    · exact Or.inr (Or.inr heq)
    · rcases hd with hd | ⟨he, rfl⟩
      · exact (hi.ran i hd e' hne hpart).imp (fun h => ⟨h, heq⟩) Or.inl
      · exact Or.inl ⟨hrun he e' (he ▸ hne) hpart, heq⟩
  back i e' hne hpart hd := by
    rw [done_finish hi hj] at hd ⊢
    rcases hd with hd | ⟨rfl, rfl⟩
    · exact Or.inl (hi.back i e' hne hpart hd)
    · exact Or.inl (hback (Ne.symm hne))

/-- What a site does. -/
inductive Step (π : Plan A E) (e : E) : State A E → State A E → Prop
  | skip {s : State A E} (ht : Loan.part π e (s.taken e) = []) : Step π e s (s.skip e)
  | hold {s : State A E} (ht : Loan.part π e (s.taken e) ≠ []) : Step π e s (s.hold π e)
  | lend {s : State A E} {j : ℕ} (hj : j ∈ s.held e) (he : π.target j ≠ e)
      (hhead : s.Head π e j) : Step π e s (s.lend e j)
  | run {s : State A E} {j : ℕ} (hj : j ∈ s.held e) (he : π.target j = e)
      (hhead : s.Head π e j) (hlent : s.Lent π e j) (hfree : Alone π j → s.Free π j) :
      Step π e s (s.finish π e j)
  | settle {s : State A E} {j : ℕ} (hj : j ∈ s.lent e) (hran : s.Done (π.target j) j) :
      Step π e s (s.finish π e j)

theorem Inv.step {t : State A E} (hp : Proper π) (hi : Inv π s) (h : Step π e s t) :
    Inv π t := by
  cases h with
  | skip ht => exact hi.skip hp ht
  | hold ht => exact hi.hold ht
  | lend hj he hhead => exact hi.lend hj he hhead
  | run hj he hhead hlent hfree =>
      exact hi.finish hj hhead (fun _ => hlent) fun hne => absurd he hne
  | @settle j hj hran =>
      obtain ⟨hheld, htarget, hhead⟩ := hi.lent e j hj
      exact hi.finish hheld hhead (fun he => absurd he htarget) fun _ => hran

/-- A step is through with more. -/
theorem Step.done {t : State A E} (hi : Inv π s) (h : Step π e s t) (hd : s.Done e' j) :
    t.Done e' j := by
  cases h with
  | skip ht => exact done_skip.mpr (Or.inl hd)
  | hold ht => exact done_hold.mpr hd
  | lend hj he hhead => exact hd
  | run hj he hhead hlent hfree => exact (done_finish hi hj).mpr (Or.inl hd)
  | @settle i hj hran => exact (done_finish hi (hi.lent e i hj).1).mpr (Or.inl hd)

/-- What was lent stays lent until the site is through with the job. -/
theorem Step.lent {t : State A E} (hi : Inv π s) (h : Step π e s t) (hl : j ∈ s.lent e') :
    j ∈ t.lent e' ∨ t.Done e' j := by
  have hfinish : ∀ i ∈ s.held e, j ∈ (s.finish π e i).lent e' ∨ (s.finish π e i).Done e' j := by
    intro i hmem
    rw [mem_lent_finish, done_finish hi hmem]
    by_cases heq : e' = e ∧ j = i
    · exact Or.inr (Or.inr heq)
    · exact Or.inl ⟨hl, heq⟩
  cases h with
  | skip ht => exact Or.inl hl
  | hold ht => exact Or.inl hl
  | lend hj he hhead => exact Or.inl (mem_lent_lend.mpr (Or.inl hl))
  | run hj he hhead hlent hfree => exact hfinish _ hj
  | @settle i hj hran => exact hfinish i (hi.lent e i hj).1

/-- The two states are the same for the site. -/
structure Same (π : Plan A E) (e : E) (s t : State A E) : Prop where
  taken : t.taken e = s.taken e
  held : t.held e = s.held e
  lent : t.lent e = s.lent e
  front : ∀ a, π.home a = e → t.front a = s.front a
  lock : ∀ a, π.home a = e → t.lock a = s.lock a

/-- A step of another site changes nothing for this one. -/
theorem Step.same {t : State A E} (h : Step π e s t) (hne : e' ≠ e) : Same π e' s t := by
  have hnot : ∀ j a, π.home a = e' → a ∉ Loan.part π e j := fun j a ha hmem =>
    hne (ha.symm.trans (mem_part.mp hmem).2)
  have hfinish : ∀ j, Same π e' s (s.finish π e j) := fun j =>
    ⟨rfl, Function.update_of_ne hne _ _, Function.update_of_ne hne _ _,
      fun a ha => if_neg (hnot j a ha), fun a ha => if_neg (hnot j a ha)⟩
  cases h with
  | skip ht => exact ⟨Function.update_of_ne hne _ _, rfl, rfl, fun _ _ => rfl, fun _ _ => rfl⟩
  | hold ht =>
      exact ⟨Function.update_of_ne hne _ _, Function.update_of_ne hne _ _, rfl, fun _ _ => rfl,
        fun a ha => if_neg (hnot _ a ha)⟩
  | lend hj he hhead =>
      exact ⟨rfl, rfl, Function.update_of_ne hne _ _, fun _ _ => rfl, fun _ _ => rfl⟩
  | run hj he hhead hlent hfree => exact hfinish _
  | settle hj hran => exact hfinish _

/-- What a site does one after the other. -/
abbrev Steps (π : Plan A E) (e : E) : State A E → State A E → Prop :=
  Relation.ReflTransGen (Step π e)

section Steps

variable {t : State A E} (hp : Proper π) (hi : Inv π s) (h : Steps π e s t)

include hp hi h

theorem Inv.steps : Inv π t := by
  induction h with
  | refl => exact hi
  | tail _ hstep ih => exact ih.step hp hstep

theorem Steps.done (hd : s.Done e' j) : t.Done e' j := by
  induction h with
  | refl => exact hd
  | tail hsteps hstep ih => exact hstep.done (hi.steps hp hsteps) ih

theorem Steps.lent (hl : j ∈ s.lent e') : j ∈ t.lent e' ∨ t.Done e' j := by
  induction h with
  | refl => exact Or.inl hl
  | tail hsteps hstep ih =>
      have hinv := hi.steps hp hsteps
      rcases ih with hl | hd
      · exact hstep.lent hinv hl
      · exact Or.inr (hstep.done hinv hd)

end Steps

theorem Steps.same {t : State A E} (h : Steps π e s t) (hne : e' ≠ e) : Same π e' s t := by
  induction h with
  | refl => exact ⟨rfl, rfl, rfl, fun _ _ => rfl, fun _ _ => rfl⟩
  | tail _ hstep ih =>
      have hs := hstep.same hne
      exact ⟨hs.taken.trans ih.taken, hs.held.trans ih.held, hs.lent.trans ih.lent,
        fun a ha => (hs.front a ha).trans (ih.front a ha),
        fun a ha => (hs.lock a ha).trans (ih.lock a ha)⟩

omit [DecidableEq E] [DecidableEq A] in
theorem Same.done {t : State A E} (h : Same π e s t) : t.Done e j ↔ s.Done e j := by
  unfold Done
  rw [h.taken, h.held]

/-! ## The queue of a cell -/

/-- The jobs that a site holds back on a cell. -/
def queue (π : Plan A E) (s : State A E) (e : E) (a : A) : List ℕ :=
  (s.held e).filter fun j => a ∈ Loan.part π e j

theorem mem_queue : j ∈ s.queue π e a ↔ j ∈ s.held e ∧ a ∈ Loan.part π e j := by
  unfold queue
  rw [List.mem_filter, decide_eq_true_eq]

theorem queue_hold : (s.hold π e).queue π e a =
    s.queue π e a ++ if a ∈ Loan.part π e (s.taken e) then [s.taken e] else [] := by
  unfold queue hold
  dsimp only
  rw [Function.update_self, List.filter_append]
  refine congrArg (((s.held e).filter fun j => a ∈ Loan.part π e j) ++ ·) ?_
  rw [List.filter_singleton]
  by_cases h : a ∈ Loan.part π e (s.taken e)
  · rw [if_pos h, decide_eq_true h]
    rfl
  · rw [if_neg h, decide_eq_false h]
    rfl

/-- The first of a list that satisfies `p`. -/
theorem filter_eq_of_first {l : List ℕ} {p : ℕ → Bool} (hj : j ∈ l)
    (hfirst : p j = true → ∀ i ∈ l, i < j → p i = false) (hl : l.Pairwise (· < ·)) :
    l.filter p = (if p j = true then [j] else []) ++ (l.erase j).filter p := by
  induction l with
  | nil => cases hj
  | cons x l ih =>
      rw [List.pairwise_cons] at hl
      by_cases hx : x = j
      · rw [hx, List.erase_cons_head, List.filter_cons]
        split
        · rfl
        · rfl
      · have hmem := (List.mem_cons.mp hj).resolve_left (Ne.symm hx)
        have ih := ih hmem (fun hp i hi => hfirst hp i (List.mem_cons_of_mem x hi)) hl.2
        rw [List.erase_cons_tail (by simpa using hx), List.filter_cons, List.filter_cons]
        by_cases hp : p j = true
        · have hnot : p x = false := hfirst hp x List.mem_cons_self (hl.1 j hmem)
          rw [hnot]
          exact ih
        · rw [if_neg hp] at ih ⊢
          rw [ih]
          rfl

theorem queue_finish (hi : Inv π s) (hj : j ∈ s.held e) (hhead : s.Head π e j) :
    s.queue π e a =
      (if a ∈ Loan.part π e j then [j] else []) ++ (s.finish π e j).queue π e a := by
  unfold queue finish
  dsimp only
  rw [Function.update_self, filter_eq_of_first hj (fun ha i hmem hij => ?_) (hi.sorted e)]
  · simp only [decide_eq_true_eq]
  · exact decide_eq_false (hhead i hmem hij a (of_decide_eq_true ha))

theorem first_iff (hi : Inv π s) :
    s.First π a j ↔ (s.queue π (π.home a) a).head? = some j := by
  have hpart : ∀ i, a ∈ Loan.part π (π.home a) i ↔ a ∈ π.cells i := fun i => by
    rw [mem_part, and_iff_left rfl]
  constructor
  · rintro ⟨hj, ha, hfirst⟩
    have heq := filter_eq_of_first (p := fun i => a ∈ Loan.part π (π.home a) i) hj
      (fun _ i hmem hij => decide_eq_false fun hin => hfirst i hmem hij ((hpart i).mp hin))
      (hi.sorted _)
    unfold queue
    rw [heq, if_pos (decide_eq_true ((hpart j).mpr ha))]
    rfl
  · intro h
    obtain ⟨rest, hrest⟩ := List.head?_eq_some_iff.mp h
    have hmem : j ∈ s.queue π (π.home a) a := by
      rw [hrest]
      exact List.mem_cons_self
    obtain ⟨hj, ha⟩ := mem_queue.mp hmem
    refine ⟨hj, (hpart j).mp ha, fun i hmem hij hin => ?_⟩
    have hq : i ∈ s.queue π (π.home a) a := mem_queue.mpr ⟨hmem, (hpart i).mpr hin⟩
    have hsorted : (s.queue π (π.home a) a).Pairwise (· < ·) := (hi.sorted _).filter _
    rw [hrest, List.pairwise_cons] at hsorted
    rw [hrest, List.mem_cons] at hq
    rcases hq with rfl | hq
    · exact lt_irrefl i hij
    · exact absurd (hsorted.1 i hq) (not_lt.mpr hij.le)

/-- The job is at the head of the queues of all its cells of the site. -/
theorem head_iff (hi : Inv π s) (hj : j ∈ s.held e) :
    s.Head π e j ↔ ∀ a ∈ Loan.part π e j, (s.queue π e a).head? = some j := by
  constructor
  · intro h a ha
    obtain ⟨hmem, rfl⟩ := mem_part.mp ha
    refine (first_iff hi).mp ⟨hj, hmem, fun i hheld hij hin => ?_⟩
    exact h i hheld hij a ha (mem_part_home hin)
  · intro h i hheld hij a ha hin
    obtain ⟨hmem, rfl⟩ := mem_part.mp ha
    exact ((first_iff hi).mpr (h a ha)).2.2 i hheld hij (mem_part.mp hin).1

/-! ## Stuck jobs -/

omit [DecidableEq A] in
theorem First.held_lt (hi : Inv π s) (h : s.First π a i) : i < s.taken (π.home a) :=
  hi.lt _ i h.1

theorem First.hold (hi : Inv π s) (h : s.First π a i) : (s.hold π e).First π a i := by
  refine ⟨mem_held_hold.mpr (Or.inl h.1), h.2.1, fun k hk hki => ?_⟩
  rcases mem_held_hold.mp hk with hk | ⟨he, rfl⟩
  · exact h.2.2 k hk hki
  · have := h.held_lt hi
    rw [he] at this
    omega

theorem First.of_hold (h : (s.hold π e).First π a i) (hne : i ≠ s.taken e ∨ π.home a ≠ e) :
    s.First π a i := by
  obtain ⟨hheld, ha, hfirst⟩ := h
  refine ⟨(mem_held_hold.mp hheld).resolve_right ?_, ha, fun k hk =>
    hfirst k (mem_held_hold.mpr (Or.inl hk))⟩
  rintro ⟨he, rfl⟩
  exact hne.elim (fun h => h rfl) fun h => h he

/-- Holding back a job gets another one stuck if it waits for cells that it has itself
    reached. -/
theorem stuck_hold_iff (hi : Inv π s) :
    (s.hold π e).Stuck π ↔ s.Stuck π ∨ ¬ s.Careful π e := by
  have hlock : ∀ a, (s.hold π e).lock a =
      if a ∈ Loan.part π e (s.taken e) then some (s.taken e) else s.lock a := fun _ => rfl
  constructor
  · rintro ⟨a, i, hfirst, halone, hsome, hne⟩
    rw [hlock] at hsome hne
    by_cases ha : a ∈ Loan.part π e (s.taken e)
    · rw [if_pos ha] at hne
      refine Or.inr fun hcareful => hcareful a ha i (hfirst.of_hold (Or.inl ?_)) halone
      rintro rfl
      exact hne rfl
    · rw [if_neg ha] at hsome hne
      refine Or.inl ⟨a, i, hfirst.of_hold ?_, halone, hsome, hne⟩
      by_contra hboth
      push Not at hboth
      obtain ⟨rfl, he⟩ := hboth
      exact ha (mem_part.mpr ⟨hfirst.2.1, he⟩)
  · rintro (⟨a, i, hfirst, halone, hsome, hne⟩ | hcareful)
    · refine ⟨a, i, hfirst.hold hi, halone, ?_⟩
      rw [hlock]
      split
      · rename_i ha
        have hlt := hfirst.held_lt hi
        rw [(mem_part.mp ha).2] at hlt
        exact ⟨Option.some_ne_none _, fun h => by rw [Option.some.inj h] at hlt; omega⟩
      · exact ⟨hsome, hne⟩
    · unfold Careful at hcareful
      push Not at hcareful
      obtain ⟨a, ha, i, hfirst, halone⟩ := hcareful
      refine ⟨a, i, hfirst.hold hi, halone, ?_⟩
      have hlt := hfirst.held_lt hi
      rw [(mem_part.mp ha).2] at hlt
      rw [hlock, if_pos ha]
      exact ⟨Option.some_ne_none _, fun h => by rw [Option.some.inj h] at hlt; omega⟩

/-- A job that leaves its queues does not get another one stuck, and is not stuck itself. -/
theorem stuck_finish_iff (hi : Inv π s) (hj : j ∈ s.held e) (hhead : s.Head π e j)
    (hfree : Alone π j → s.Free π j) : (s.finish π e j).Stuck π ↔ s.Stuck π := by
  have hlock : ∀ a, (s.finish π e j).lock a =
      if a ∈ Loan.part π e j then none else s.lock a := fun _ => rfl
  constructor
  · rintro ⟨a, i, ⟨hheld, ha, hfirst⟩, halone, hsome, hne⟩
    rw [hlock] at hsome hne
    by_cases haj : a ∈ Loan.part π e j
    · rw [if_pos haj] at hsome
      exact absurd rfl hsome
    · rw [if_neg haj] at hsome hne
      refine ⟨a, i, ⟨((mem_held_finish hi).mp hheld).1, ha, fun k hk hki hmem => ?_⟩, halone,
        hsome, hne⟩
      refine hfirst k ((mem_held_finish hi).mpr ⟨hk, ?_⟩) hki hmem
      rintro ⟨he, rfl⟩
      exact haj (mem_part.mpr ⟨hmem, he⟩)
  · rintro ⟨a, i, ⟨hheld, ha, hfirst⟩, halone, hsome, hne⟩
    have haj : a ∉ Loan.part π e j := by
      -- otherwise it is the first one on the cell
      intro haj
      obtain ⟨hmem, rfl⟩ := mem_part.mp haj
      have hij : i = j := by
        rcases Nat.lt_trichotomy i j with hlt | heq | hlt
        · exact absurd (mem_part_home ha) (hhead i hheld hlt a haj)
        · exact heq
        · exact absurd hmem (hfirst j hj hlt)
      subst hij
      rcases hfree halone a ha with hnone | hown
      · exact hsome hnone
      · exact hne hown
    refine ⟨a, i, ⟨(mem_held_finish hi).mpr ⟨hheld, ?_⟩, ha, fun k hk =>
      hfirst k ((mem_held_finish hi).mp hk).1⟩, halone, ?_⟩
    · rintro ⟨he, rfl⟩
      exact haj (mem_part.mpr ⟨ha, he⟩)
    · rw [hlock, if_neg haj]
      exact ⟨hsome, hne⟩

theorem Step.taken_le {t : State A E} (h : Step π e s t) : s.taken e ≤ t.taken e := by
  cases h with
  | skip ht => simp [State.skip]
  | hold ht => simp [State.hold]
  | _ => exact le_rfl

theorem Steps.taken_le {t : State A E} (h : Steps π e s t) : s.taken e ≤ t.taken e := by
  induction h with
  | refl => exact le_rfl
  | tail _ hstep ih => exact ih.trans hstep.taken_le

/-- Only taking a job gets one stuck. -/
theorem Step.stuck_iff {t : State A E} (hi : Inv π s) (h : Step π e s t)
    (htaken : t.taken e = s.taken e) : t.Stuck π ↔ s.Stuck π := by
  cases h with
  | skip ht => simp [State.skip] at htaken
  | hold ht => simp [State.hold] at htaken
  | lend hj he hhead => exact Iff.rfl
  | run hj he hhead hlent hfree => exact stuck_finish_iff hi hj hhead hfree
  | @settle j hj hran =>
      obtain ⟨hheld, htarget, hhead⟩ := hi.lent e j hj
      exact stuck_finish_iff hi hheld hhead fun halone =>
        absurd (halone e (hi.part e j hheld)).symm htarget

theorem Steps.stuck_iff {t : State A E} (hp : Proper π) (hi : Inv π s) (h : Steps π e s t)
    (htaken : t.taken e = s.taken e) : t.Stuck π ↔ s.Stuck π := by
  induction h with
  | refl => exact Iff.rfl
  | @tail u t hsteps hstep ih =>
      have hle := Steps.taken_le hsteps
      have hle' := hstep.taken_le
      exact (hstep.stuck_iff (hi.steps hp hsteps) (by omega)).trans (ih (by omega))

/-- Without taking a job a site holds back no more. -/
theorem Step.length_held_le {t : State A E} (h : Step π e s t) (htaken : t.taken e = s.taken e) :
    (t.held e).length ≤ (s.held e).length := by
  have hfinish : ∀ j, ((s.finish π e j).held e).length ≤ (s.held e).length := by
    intro j
    unfold State.finish
    dsimp only
    rw [Function.update_self]
    exact List.length_erase_le
  cases h with
  | skip ht => exact le_rfl
  | hold ht => simp [State.hold] at htaken
  | lend hj he hhead => exact le_rfl
  | run hj he hhead hlent hfree => exact hfinish _
  | settle hj hran => exact hfinish _

theorem Steps.length_held_le {t : State A E} (h : Steps π e s t) (htaken : t.taken e = s.taken e) :
    (t.held e).length ≤ (s.held e).length := by
  induction h with
  | refl => exact le_rfl
  | tail hsteps hstep ih =>
      have hle := Steps.taken_le hsteps
      have hle' := hstep.taken_le
      exact (hstep.length_held_le (by omega)).trans (ih (by omega))

/-! ## Nothing left to run -/

/-- What a site can do with a job that it holds back. -/
inductive Enabled (π : Plan A E) (s : State A E) (e : E) (j : ℕ) : Prop
  | lend (he : π.target j ≠ e) (hnew : j ∉ s.lent e)
  | run (he : π.target j = e) (hlent : s.Lent π e j) (hfree : Alone π j → s.Free π j)
  | settle (hj : j ∈ s.lent e) (hran : s.Done (π.target j) j)

omit [DecidableEq A] in
/-- The first job that any site holds back can be dealt with, unless it is stuck. -/
theorem Inv.progress (hp : Proper π) (hi : Inv π s) (hstuck : ¬ s.Stuck π)
    (hle : ∀ e, ∀ j ∈ s.held e, j < n)
    (htaken : ∀ e, ∀ j < n, Loan.part π e j ≠ [] → s.taken e = n) (hne : ∃ e, s.held e ≠ []) :
    ∃ e, ∃ j ∈ s.held e, s.Head π e j ∧ s.Enabled π e j := by
  classical
  have hex : ∃ j e, j ∈ s.held e := by
    obtain ⟨e, he⟩ := hne
    obtain ⟨j, hj⟩ := List.exists_mem_of_ne_nil _ he
    exact ⟨j, e, hj⟩
  let j := Nat.find hex
  have hmin : ∀ i < j, ∀ e, i ∉ s.held e := fun i hij e hmem => Nat.find_min hex hij ⟨e, hmem⟩
  have hhead : ∀ e, s.Head π e j := fun e i hmem hij => absurd hmem (hmin i hij e)
  obtain ⟨e, he⟩ : ∃ e, j ∈ s.held e := Nat.find_spec hex
  have hjn : j < n := hle e j he
  have hpart := hi.part e j he
  have htarget := hp j (cells_ne_nil hpart)
  -- a site that is not through with the job holds it back
  have hheld : ∀ e', Loan.part π e' j ≠ [] → ¬ s.Done e' j → j ∈ s.held e' := by
    intro e' hpart' hnot
    by_contra hmem
    exact hnot ⟨by rw [htaken e' j hjn hpart']; exact hjn, hmem⟩
  by_cases hran : s.Done (π.target j) j
  · -- it has run, so the site that holds it back waits for its cells
    have hte : e ≠ π.target j := by
      rintro rfl
      exact hran.2 he
    have hlent := (hi.ran j hran e hte hpart).resolve_right fun hd => hd.2 he
    exact ⟨e, j, he, hhead e, .settle hlent hran⟩
  · by_cases hlent : s.Lent π (π.target j) j
    · refine ⟨π.target j, j, hheld _ htarget hran, hhead _, .run rfl hlent fun halone a ha => ?_⟩
      have hfirst : s.First π a j := by
        refine ⟨?_, ha, fun i hmem hij => absurd hmem (hmin i hij _)⟩
        rw [halone.home ha]
        exact hheld _ htarget hran
      by_contra hlock
      rw [not_or] at hlock
      exact hstuck ⟨a, j, hfirst, halone, hlock.1, hlock.2⟩
    · unfold Lent at hlent
      push Not at hlent
      obtain ⟨e', hne', hpart', hnot⟩ := hlent
      have hd : ¬ s.Done e' j := fun hd => hran (hi.back j e' hne' hpart' hd)
      exact ⟨e', j, hheld e' hpart' hd, hhead e', .lend (Ne.symm hne') hnot⟩

omit [DecidableEq A] in
/-- When nothing is held back a cell is as after the last job. -/
theorem Inv.eq_front (hi : Inv π s) (hheld : s.held (π.home a) = [])
    (htaken : s.taken (π.home a) = n) {β : Type} {f : ℕ → A → β}
    (hf : ∀ j a, a ∉ π.cells j → f (j + 1) a = f j a) : f n a = f (s.front a) a := by
  have hiff : ∀ j, a ∈ π.cells j → (j < s.front a ↔ j < n) := by
    intro j ha
    rw [← hi.front j a ha]
    unfold Done
    rw [hheld, htaken]
    simp
  rcases Nat.le_total (s.front a) n with hfn | hnf
  · refine Plan.Clear.eq hf (fun m hm hmn hmem => ?_) hfn
    have := (hiff m hmem).mpr hmn
    omega
  · refine (Plan.Clear.eq hf (fun m hm hmn hmem => ?_) hnf).symm
    have := (hiff m hmem).mp hmn
    omega

end State

end Loan
