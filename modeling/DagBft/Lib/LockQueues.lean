/-
  Jobs that wait in the queues of the cells that they work on.

  The jobs stand in one order, and the queue of a cell is made of those that work on it. A
  job at the head of all its queues may be dealt with, if the states of its cells allow it:
  it leaves the queues and changes its own cells, in a way that depends on these alone.
  Only jobs with a cell that is awake are looked at, and some wake their cells.

  Proved: two jobs that may be dealt with have no cell in common (`Head.disjoint`), so
  either may go first (`deal_comm`). Hence all orders of dealing with the jobs end in the
  same state (`Discipline.confluent`).
-/
import Mathlib.Algebra.Group.Basic
import Mathlib.Data.List.Basic
import Mathlib.Logic.Function.Basic
import Mathlib.Logic.Relation
import Mathlib.Tactic.Common

namespace LockQueues

/-! ## Queues -/

section Queues

variable {A P : Type} [DecidableEq A]

section Definitions

variable (keys : P → List A) (jobs : List P)

/-- The first job that works on the cell. -/
def first (a : A) : Option P := jobs.find? fun p => decide (a ∈ keys p)

/-- The queue of a cell. A job is in it as often as it names the cell. -/
def queue (a : A) : List P := jobs.flatMap fun p => List.replicate ((keys p).count a) p

/-- The job is at the head of all its queues. -/
def Head (p : P) : Prop := ∀ a ∈ keys p, first keys jobs a = some p

/-- The job `q` is before `p` in one of the queues. -/
def Ahead (q p : P) : Prop := q ≠ p ∧ [q, p].Sublist jobs ∧ ∃ a ∈ keys q, a ∈ keys p

end Definitions

variable {keys : P → List A} {jobs : List P} {p q : P} {a : A}

theorem mem_of_first (h : first keys jobs a = some p) : p ∈ jobs ∧ a ∈ keys p :=
  ⟨List.mem_of_find?_eq_some h, by simpa using List.find?_some h⟩

theorem mem_queue : p ∈ queue keys jobs a ↔ p ∈ jobs ∧ a ∈ keys p := by
  unfold queue
  simp only [List.mem_flatMap, List.mem_replicate, ne_eq, List.count_eq_zero, not_not]
  constructor
  · rintro ⟨p, hp, ha, rfl⟩
    exact ⟨hp, ha⟩
  · rintro ⟨hp, ha⟩
    exact ⟨p, hp, ha, rfl⟩

theorem queue_cons : queue keys (p :: jobs) a =
    List.replicate ((keys p).count a) p ++ queue keys jobs a := List.flatMap_cons

theorem queue_concat : queue keys (jobs ++ [p]) a =
    queue keys jobs a ++ List.replicate ((keys p).count a) p := by
  unfold queue
  rw [List.flatMap_append, List.flatMap_singleton]

theorem head?_queue : (queue keys jobs a).head? = first keys jobs a := by
  induction jobs with
  | nil => rfl
  | cons p jobs ih =>
      unfold first at ih ⊢
      rw [queue_cons]
      by_cases ha : a ∈ keys p
      · obtain ⟨n, hn⟩ := Nat.exists_eq_succ_of_ne_zero 
          (Nat.pos_iff_ne_zero.mp (List.count_pos_iff.mpr ha))
        rw [hn, List.find?_cons_of_pos (by simpa using ha)]
        rfl
      · rw [List.count_eq_zero_of_not_mem ha, List.find?_cons_of_neg (by simpa using ha)]
        exact ih

theorem queue_eq_nil (h : first keys jobs a = none) : queue keys jobs a = [] := by
  rwa [← List.head?_eq_none_iff, head?_queue]

theorem exists_queue_eq (h : first keys jobs a = some p) :
    ∃ later, queue keys jobs a = p :: later := by
  rwa [← head?_queue, List.head?_eq_some_iff] at h

/-- Two jobs at the head of their queues work on different cells. -/
theorem Head.disjoint (hp : Head keys jobs p) (hq : Head keys jobs q) (hne : p ≠ q) :
    ∀ a ∈ keys p, a ∉ keys q := by
  intro a ha ha'
  have heq := (hp a ha).symm.trans (hq a ha')
  exact hne (Option.some.inj heq)

variable [DecidableEq P]

/-- Taking out a job that is not the first on the cell. -/
theorem first_erase (h : first keys jobs a = some q) (hne : q ≠ p) :
    first keys (jobs.erase p) a = some q := by
  unfold first at h ⊢
  induction jobs with
  | nil => cases h
  | cons x jobs ih =>
      by_cases hax : a ∈ keys x
      · rw [List.find?_cons_of_pos (by simpa using hax)] at h
        obtain rfl : x = q := Option.some.inj h
        rw [List.erase_cons_tail (by simpa using hne), List.find?_cons_of_pos (by simpa using hax)]
      · rw [List.find?_cons_of_neg (by simpa using hax)] at h
        by_cases hxp : x = p
        · rwa [hxp, List.erase_cons_head]
        · rw [List.erase_cons_tail (by simpa using hxp),
            List.find?_cons_of_neg (by simpa using hax)]
          exact ih h

theorem first_erase_of_notMem (ha : a ∉ keys p) :
    first keys (jobs.erase p) a = first keys jobs a := by
  unfold first
  induction jobs with
  | nil => rfl
  | cons x jobs ih =>
      by_cases hxp : x = p
      · rw [hxp, List.erase_cons_head, List.find?_cons_of_neg (by simpa using ha)]
      · rw [List.erase_cons_tail (by simpa using hxp)]
        by_cases hax : a ∈ keys x
        · rw [List.find?_cons_of_pos (by simpa using hax),
            List.find?_cons_of_pos (by simpa using hax)]
        · rw [List.find?_cons_of_neg (by simpa using hax),
            List.find?_cons_of_neg (by simpa using hax)]
          exact ih

theorem Head.erase (h : Head keys jobs q) (hne : q ≠ p) : Head keys (jobs.erase p) q :=
  fun a ha => first_erase (h a ha) hne

/-- The queue of a cell that has the job at its head. -/
theorem queue_of_first (hp : p ∈ jobs) (h : a ∈ keys p → first keys jobs a = some p) :
    queue keys jobs a =
      List.replicate ((keys p).count a) p ++ queue keys (jobs.erase p) a := by
  induction jobs with
  | nil => cases hp
  | cons x jobs ih =>
      by_cases hxp : x = p
      · rw [hxp, List.erase_cons_head, queue_cons]
      · have hmem : p ∈ jobs := (List.mem_cons.mp hp).resolve_left (Ne.symm hxp)
        rw [List.erase_cons_tail (by simpa using hxp), queue_cons, queue_cons]
        by_cases hax : a ∈ keys x
        · -- then it is not a cell of `p`
          have hap : a ∉ keys p := by
            intro hap
            have heq := h hap
            unfold first at heq
            rw [List.find?_cons_of_pos (by simpa using hax)] at heq
            exact hxp (Option.some.inj heq)
          rw [ih hmem fun hap' => absurd hap' hap, List.count_eq_zero_of_not_mem hap]
          rfl
        · rw [List.count_eq_zero_of_not_mem hax, ih hmem fun hap => ?_]
          · rfl
          · have heq := h hap
            unfold first at heq ⊢
            rwa [List.find?_cons_of_neg (by simpa using hax)] at heq

end Queues

/-! ## What is before a job -/

section Ahead

variable {A P : Type} [DecidableEq A] {keys : P → List A} {jobs jobs' : List P} {p q r : P} {a : A}

omit [DecidableEq A] in
theorem Ahead.mono (h : Ahead keys jobs' q p) (hsub : jobs'.Sublist jobs) :
    Ahead keys jobs q p := ⟨h.1, h.2.1.trans hsub, h.2.2⟩

omit [DecidableEq A] in
theorem pair_sublist_cons {x : P} : [q, p].Sublist (x :: jobs) ↔
    [q, p].Sublist jobs ∨ q = x ∧ p ∈ jobs := by
  rw [List.sublist_cons_iff]
  refine or_congr_right ⟨?_, ?_⟩
  · rintro ⟨l, heq, hl⟩
    obtain ⟨rfl, rfl⟩ := List.cons.inj heq
    exact ⟨rfl, List.singleton_sublist.mp hl⟩
  · rintro ⟨rfl, hp⟩
    exact ⟨[p], rfl, List.singleton_sublist.mpr hp⟩

/-- In terms of the queues. -/
theorem ahead_iff : Ahead keys jobs q p ↔ q ≠ p ∧ ∃ a, [q, p].Sublist (queue keys jobs a) := by
  constructor
  · rintro ⟨hne, hsub, a, haq, hap⟩
    refine ⟨hne, a, ?_⟩
    induction jobs with
    | nil => cases hsub
    | cons x jobs ih =>
        rw [queue_cons]
        rcases pair_sublist_cons.mp hsub with hsub | ⟨rfl, hp⟩
        · exact (ih hsub).trans (List.sublist_append_right _ _)
        · have hq : q ∈ List.replicate ((keys q).count a) q :=
            List.mem_replicate.mpr ⟨Nat.pos_iff_ne_zero.mp (List.count_pos_iff.mpr haq), rfl⟩
          exact (List.singleton_sublist.mpr hq).append
            (List.singleton_sublist.mpr (mem_queue.mpr ⟨hp, hap⟩))
  · rintro ⟨hne, a, hsub⟩
    have hq : q ∈ queue keys jobs a := hsub.subset List.mem_cons_self
    have hp : p ∈ queue keys jobs a := hsub.subset (by simp)
    refine ⟨hne, ?_, a, (mem_queue.mp hq).2, (mem_queue.mp hp).2⟩
    clear hq hp
    induction jobs with
    | nil => cases hsub
    | cons x jobs ih =>
        rw [queue_cons, List.sublist_append_iff] at hsub
        obtain ⟨l₁, l₂, heq, h₁, h₂⟩ := hsub
        rw [pair_sublist_cons]
        match l₁, heq with
        | [], heq =>
            obtain rfl : [q, p] = l₂ := heq
            exact Or.inl (ih h₂)
        | [y], heq =>
            obtain ⟨rfl, rfl⟩ := List.cons.inj heq
            have hx := List.eq_of_mem_replicate (h₁.subset List.mem_cons_self)
            exact Or.inr ⟨hx, (mem_queue.mp (h₂.subset List.mem_cons_self)).1⟩
        | y :: z :: l, heq =>
            -- both would be the same
            obtain ⟨hqy, htail⟩ := List.cons.inj heq
            obtain ⟨hpz, -⟩ := List.cons.inj htail
            have hy := List.eq_of_mem_replicate (h₁.subset List.mem_cons_self)
            have hz := List.eq_of_mem_replicate
              (h₁.subset (List.mem_cons_of_mem y List.mem_cons_self))
            exact absurd (hqy.trans (hy.trans (hz.symm.trans hpz.symm))) hne

/-- A job with no other before it is at the head of its queues. -/
theorem head_of_not_ahead (hp : p ∈ jobs) (h : ∀ q, ¬ Ahead keys jobs q p) :
    Head keys jobs p := by
  intro a ha
  obtain ⟨x, hx⟩ : ∃ x, first keys jobs a = some x := by
    rw [← Option.isSome_iff_exists, first, List.find?_isSome]
    exact ⟨p, hp, by simpa using ha⟩
  by_cases hxp : x = p
  · rw [hx, hxp]
  · refine absurd ⟨hxp, ?_, a, (mem_of_first hx).2, ha⟩ (h x)
    induction jobs with
    | nil => cases hp
    | cons y jobs ih =>
        rw [pair_sublist_cons]
        unfold first at hx
        by_cases hay : a ∈ keys y
        · rw [List.find?_cons_of_pos (by simpa using hay)] at hx
          obtain rfl : y = x := Option.some.inj hx
          exact Or.inr ⟨rfl, (List.mem_cons.mp hp).resolve_left (Ne.symm hxp)⟩
        · rw [List.find?_cons_of_neg (by simpa using hay)] at hx
          have hmem : p ∈ jobs := (List.mem_cons.mp hp).resolve_left fun heq => hay (heq ▸ ha)
          refine Or.inl (ih hmem (fun q hq => h q (hq.mono (List.sublist_cons_self y jobs))) hx)

theorem Head.not_ahead (hnodup : jobs.Nodup) (h : Head keys jobs p) : ¬ Ahead keys jobs q p := by
  rintro ⟨hne, hsub, a, haq, hap⟩
  have hfirst := h a hap
  clear h
  induction jobs with
  | nil => cases hsub
  | cons x jobs ih =>
      rw [List.nodup_cons] at hnodup
      unfold first at hfirst
      by_cases hax : a ∈ keys x
      · rw [List.find?_cons_of_pos (by simpa using hax)] at hfirst
        obtain rfl : x = p := Option.some.inj hfirst
        rcases pair_sublist_cons.mp hsub with hsub | ⟨rfl, hp⟩
        · exact hnodup.1 (hsub.subset (by simp))
        · exact hne rfl
      · rw [List.find?_cons_of_neg (by simpa using hax)] at hfirst
        rcases pair_sublist_cons.mp hsub with hsub | ⟨rfl, -⟩
        · exact ih hnodup.2 hsub hfirst
        · exact hax haq

omit [DecidableEq A] in
theorem Ahead.erase [DecidableEq P] (h : Ahead keys jobs q p) (hq : q ≠ r) (hp : p ≠ r) :
    Ahead keys (jobs.erase r) q p := by
  have hsub := h.2.1.erase r
  rw [List.erase_of_not_mem (by simp [Ne.symm hq, Ne.symm hp])] at hsub
  exact ⟨h.1, hsub, h.2.2⟩

omit [DecidableEq A] in
/-- The jobs that are left keep their order. -/
theorem Ahead.restrict (h : Ahead keys jobs q p) (hnodup : jobs.Nodup)
    (hleft : jobs'.Sublist jobs) (hq : q ∈ jobs') (hp : p ∈ jobs') : Ahead keys jobs' q p := by
  obtain ⟨hne, hsub, hcommon⟩ := h
  refine ⟨hne, ?_, hcommon⟩
  induction hleft with
  | slnil => exact hsub
  | @cons jobs' jobs x hleft ih =>
      rw [List.nodup_cons] at hnodup
      rcases pair_sublist_cons.mp hsub with hsub | ⟨rfl, -⟩
      · exact ih hnodup.2 hq hp hsub
      · exact absurd (hleft.subset hq) hnodup.1
  | @cons_cons jobs' jobs x hleft ih =>
      rw [List.nodup_cons] at hnodup
      rw [pair_sublist_cons]
      rcases pair_sublist_cons.mp hsub with hsub | ⟨rfl, hp'⟩
      · -- neither is the first
        have hne' : ∀ r ∈ jobs, r ≠ x := fun r hr heq => hnodup.1 (heq ▸ hr)
        have hq' := (List.mem_cons.mp hq).resolve_left (hne' q (hsub.subset List.mem_cons_self))
        have hp' := (List.mem_cons.mp hp).resolve_left (hne' p (hsub.subset (by simp)))
        exact Or.inl (ih hnodup.2 hq' hp' hsub)
      · exact Or.inr ⟨rfl, (List.mem_cons.mp hp).resolve_left fun heq => hnodup.1 (heq ▸ hp')⟩

omit [DecidableEq A] in
theorem Ahead.idxOf_lt [DecidableEq P] (h : Ahead keys jobs q p) (hnodup : jobs.Nodup) :
    jobs.idxOf q < jobs.idxOf p := by
  obtain ⟨-, hsub, -⟩ := h
  induction jobs with
  | nil => cases hsub
  | cons x jobs ih =>
      rw [List.nodup_cons] at hnodup
      have hne : ∀ r ∈ jobs, x ≠ r := by
        rintro r hr rfl
        exact hnodup.1 hr
      rcases pair_sublist_cons.mp hsub with hsub | ⟨rfl, hp⟩
      · have hlt := ih hnodup.2 hsub
        rw [List.idxOf_cons_ne _ (hne q (hsub.subset List.mem_cons_self)),
          List.idxOf_cons_ne _ (hne p (hsub.subset (by simp)))]
        omega
      · rw [List.idxOf_cons_self, List.idxOf_cons_ne _ (hne p hp)]
        exact Nat.succ_pos _

omit [DecidableEq A] in
/-- Induction over what is before a job. -/
theorem ahead_induction [DecidableEq P] (keys : P → List A) {motive : P → Prop}
    (hnodup : jobs.Nodup)
    (h : ∀ p ∈ jobs, (∀ q, Ahead keys jobs q p → motive q) → motive p) (hp : p ∈ jobs) :
    motive p := by
  induction hn : jobs.idxOf p using Nat.strongRecOn generalizing p with
  | _ n ih =>
      refine h p hp fun q hq => ih (jobs.idxOf q) ?_ (hq.2.1.subset List.mem_cons_self) rfl
      rw [← hn]
      exact hq.idxOf_lt hnodup

end Ahead

/-! ## Dealing with the jobs -/

/-- How jobs work on their cells: what they need, do and send depends on these alone, and
    they change no others. -/
structure Discipline (A V P M : Type) where
  keys : P → List A
  ready : P → (A → V) → Prop
  act : P → (A → V) → A → V
  emit : P → (A → V) → M
  /-- It wakes its cells. -/
  wakes : P → Prop
  act_frame : ∀ p s a, a ∉ keys p → act p s a = s a
  act_congr : ∀ p s s', (∀ a ∈ keys p, s a = s' a) → ∀ a ∈ keys p, act p s a = act p s' a
  ready_congr : ∀ p s s', (∀ a ∈ keys p, s a = s' a) → ready p s → ready p s'
  emit_congr : ∀ p s s', (∀ a ∈ keys p, s a = s' a) → emit p s = emit p s'

structure State (A V P M : Type) where
  jobs : List P
  store : A → V
  sent : M
  awake : A → Prop

namespace Discipline

section Act

variable {A V P M : Type} {D : Discipline A V P M} {p q : P}

/-- A job does not change the cells of one that has none in common with it. -/
theorem act_eq (h : ∀ a ∈ D.keys p, a ∉ D.keys q) (store : A → V) :
    ∀ a ∈ D.keys q, store a = D.act p store a := fun a ha =>
  (D.act_frame p store a fun hap => h a hap ha).symm

theorem act_comm (h : ∀ a ∈ D.keys p, a ∉ D.keys q) (store : A → V) :
    D.act q (D.act p store) = D.act p (D.act q store) := by
  have h' : ∀ a ∈ D.keys q, a ∉ D.keys p := fun a haq hap => h a hap haq
  funext a
  by_cases hap : a ∈ D.keys p
  · rw [D.act_frame q _ a (h a hap)]
    exact D.act_congr p _ _ (act_eq h' store) a hap
  · rw [D.act_frame p _ a hap]
    by_cases haq : a ∈ D.keys q
    · exact (D.act_congr q _ _ (act_eq h store) a haq).symm
    · rw [D.act_frame q _ a haq, D.act_frame q _ a haq, D.act_frame p _ a hap]

end Act

variable {A V P M : Type} [DecidableEq A] [DecidableEq P] [AddCommMonoid M]
  (D : Discipline A V P M)

/-- The job may be dealt with. -/
structure Enabled (s : State A V P M) (p : P) : Prop where
  mem : p ∈ s.jobs
  head : Head D.keys s.jobs p
  ready : D.ready p s.store
  awake : ∃ a ∈ D.keys p, s.awake a

def deal (s : State A V P M) (p : P) : State A V P M where
  jobs := s.jobs.erase p
  store := D.act p s.store
  sent := s.sent + D.emit p s.store
  awake a := s.awake a ∨ D.wakes p ∧ a ∈ D.keys p

def Step (s t : State A V P M) : Prop := ∃ p, D.Enabled s p ∧ t = D.deal s p

abbrev Steps : State A V P M → State A V P M → Prop := Relation.ReflTransGen D.Step

/-- No job may be dealt with. -/
def Idle (s : State A V P M) : Prop := ∀ p, ¬ D.Enabled s p

variable {D} {s t u : State A V P M} {p q : P}

/-- A job that may be dealt with remains so until it is. -/
theorem Enabled.deal (hq : D.Enabled s q) (hp : D.Enabled s p) (hne : q ≠ p) :
    D.Enabled (D.deal s p) q where
  mem := (List.mem_erase_of_ne hne).mpr hq.mem
  head := hq.head.erase hne
  ready := D.ready_congr q _ _ (act_eq (hp.head.disjoint hq.head (Ne.symm hne)) s.store) hq.ready
  awake := by
    obtain ⟨a, ha, hawake⟩ := hq.awake
    exact ⟨a, ha, Or.inl hawake⟩

/-- Of two jobs that may be dealt with, either may go first. -/
theorem deal_comm (hp : D.Enabled s p) (hq : D.Enabled s q) (hne : p ≠ q) :
    D.deal (D.deal s p) q = D.deal (D.deal s q) p := by
  have h := hp.head.disjoint hq.head hne
  have h' := hq.head.disjoint hp.head (Ne.symm hne)
  have hstore := act_comm h s.store
  have hsent : s.sent + D.emit p s.store + D.emit q (D.act p s.store) =
      s.sent + D.emit q s.store + D.emit p (D.act q s.store) := by
    rw [← D.emit_congr q _ _ (act_eq h s.store), ← D.emit_congr p _ _ (act_eq h' s.store)]
    exact add_right_comm _ _ _
  have hawake : (fun a => (s.awake a ∨ D.wakes p ∧ a ∈ D.keys p) ∨ D.wakes q ∧ a ∈ D.keys q) =
      fun a => (s.awake a ∨ D.wakes q ∧ a ∈ D.keys q) ∨ D.wakes p ∧ a ∈ D.keys p := by
    funext a
    exact propext or_right_comm
  unfold Discipline.deal
  rw [State.mk.injEq]
  exact ⟨List.erase_comm p q, hstore, hsent, hawake⟩

theorem diamond (ht : D.Step s t) (hu : D.Step s u) :
    ∃ v, Relation.ReflGen D.Step t v ∧ Relation.ReflTransGen D.Step u v := by
  obtain ⟨p, hp, rfl⟩ := ht
  obtain ⟨q, hq, rfl⟩ := hu
  by_cases hpq : p = q
  · subst hpq
    exact ⟨_, .refl, .refl⟩
  · refine ⟨D.deal (D.deal s p) q, .single ⟨q, hq.deal hp (Ne.symm hpq), rfl⟩, .single ?_⟩
    exact ⟨p, hp.deal hq hpq, deal_comm hp hq hpq⟩

/-- What one order reaches, any other that is complete reaches as well. -/
theorem steps_of_idle (ht : D.Steps s t) (hu : D.Steps s u) (hidle : D.Idle u) :
    D.Steps t u := by
  obtain ⟨v, htv, huv⟩ := Relation.church_rosser (fun _ _ _ => diamond) ht hu
  -- nothing follows an idle state
  rcases Relation.ReflTransGen.cases_head huv with rfl | ⟨w, ⟨p, hp, -⟩, -⟩
  · exact htv
  · exact absurd hp (hidle p)

/-- All orders of dealing with the jobs end in the same state. -/
theorem confluent (ht : D.Steps s t) (hu : D.Steps s u) (hidle : D.Idle t)
    (hidle' : D.Idle u) : t = u := by
  rcases Relation.ReflTransGen.cases_head (steps_of_idle ht hu hidle') with rfl | ⟨v, ⟨p, hp, -⟩, -⟩
  · rfl
  · exact absurd hp (hidle p)

/-- What has been sent remains so. -/
theorem Steps.exists_sent (h : D.Steps s t) : ∃ x, t.sent = s.sent + x := by
  induction h with
  | refl => exact ⟨0, (add_zero _).symm⟩
  | tail _ hstep ih =>
      obtain ⟨x, hx⟩ := ih
      obtain ⟨p, -, rfl⟩ := hstep
      exact ⟨x + D.emit p _, by rw [Discipline.deal, hx, add_assoc]⟩

/-- A job that has been dealt with was ready, and those before it have been dealt with. -/
theorem Steps.dealt (h : D.Steps s t) (hnodup : s.jobs.Nodup) : t.jobs.Sublist s.jobs ∧
    ∀ p ∈ s.jobs, p ∉ t.jobs → (∃ store, D.ready p store) ∧
      ∀ q, Ahead D.keys s.jobs q p → q ∉ t.jobs := by
  induction h using Relation.ReflTransGen.head_induction_on with
  | refl => exact ⟨List.Sublist.refl _, fun p hp hnot => absurd hp hnot⟩
  | @head s u hstep hsteps ih =>
      obtain ⟨r, hr, rfl⟩ := hstep
      obtain ⟨hsub, hdealt⟩ := ih (hnodup.erase r)
      have hgone : r ∉ t.jobs := fun hmem => hnodup.not_mem_erase (hsub.subset hmem)
      refine ⟨hsub.trans List.erase_sublist, fun p hp hnot => ?_⟩
      by_cases hpr : p = r
      · subst hpr
        exact ⟨⟨_, hr.ready⟩, fun q hq => absurd hq (hr.head.not_ahead hnodup)⟩
      · obtain ⟨hready, hahead⟩ := hdealt p ((List.mem_erase_of_ne hpr).mpr hp) hnot
        refine ⟨hready, fun q hq => ?_⟩
        by_cases hqr : q = r
        · rwa [hqr]
        · exact hahead q (hq.erase hqr hpr)

/-- Dealing with a job makes others ready only on its own cells. -/
theorem Enabled.of_deal (hq : D.Enabled (D.deal s p) q) (h : ∀ a ∈ D.keys q, a ∉ D.keys p) :
    D.Enabled s q where
  mem := List.mem_of_mem_erase hq.mem
  head a ha := by
    rw [← first_erase_of_notMem (h a ha)]
    exact hq.head a ha
  ready := D.ready_congr q _ _ (fun a ha => D.act_frame p s.store a (h a ha)) hq.ready
  awake := by
    obtain ⟨a, ha, hor⟩ := hq.awake
    exact ⟨a, ha, hor.resolve_right fun hw => h a ha hw.2⟩

end Discipline

end LockQueues
