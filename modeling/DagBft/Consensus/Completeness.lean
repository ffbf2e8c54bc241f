/-
  Committing a leader commits its dependencies, each of them once.

  Both can fail, through the clean-up of `State::update`. A certificate that has not been
  output is dropped when a newer one of its author is: `NoneDropped` says that this does
  not happen to an ancestor of the leader, and `ancestorsFirst_iff` that exactly then every
  certificate comes after its ancestors. A certificate that has been output and dropped
  is back in memory when it is delivered again: `NoneRevived` says that the search of
  `order_dag` does not come across one, and `nodup_output_iff` that exactly then nothing
  is output twice.
-/
import DagBft.Consensus.Points

namespace DagBft.Consensus

variable {PublicKey Digest Signature : Type} [LinearOrder PublicKey] [LinearOrder Digest]

/-- The entry of an author was there before, or is the round of one of the certificates. -/
theorem lookup_updates {s : State PublicKey Digest Signature} {a : PublicKey} {r : ℕ}
    {xs : List (Certificate PublicKey Digest Signature)} {gcDepth : ℕ}
    (h : (s.updates xs gcDepth).lastCommitted.lookup a = some r) :
    s.lastCommitted.lookup a = some r ∨ ∃ x ∈ xs, x.origin = a ∧ x.round = r := by
  induction xs generalizing s with
  | nil => exact Or.inl h
  | cons x xs ih =>
      rcases ih (s := s.update x gcDepth) h with h | ⟨y, hy, h⟩
      · rw [State.lastCommitted_update, State.lookup_bumpCommitted] at h
        split at h
        · rename_i ha
          subst ha
          rcases max_choice ((s.lastCommitted.lookup x.origin).getD 0) x.round with hm | hm
          · rw [hm, Option.some.injEq] at h
            cases hl : s.lastCommitted.lookup x.origin with
            | none =>
                rw [hl, Option.getD_none] at h hm
                refine Or.inr ⟨x, List.mem_cons_self, rfl, ?_⟩
                omega
            | some v =>
                rw [hl, Option.getD_some] at h
                exact Or.inl (h ▸ rfl)
          · rw [hm, Option.some.injEq] at h
            exact Or.inr ⟨x, List.mem_cons_self, rfl, h⟩
        · exact Or.inl h
      · exact Or.inr ⟨y, List.mem_cons_of_mem _ hy, h⟩

variable [AsBytes PublicKey] [AsBytes Digest] [Sha512 Digest]
  [Inhabited PublicKey] [Inhabited Digest] [Inhabited Signature]

variable {p : Params PublicKey} {D : CausalDag Digest Signature p.committee}
  {received : List (Certificate PublicKey Digest Signature)}
  {s : State PublicKey Digest Signature} {l x y : Certificate PublicKey Digest Signature}
  {out xs : List (Certificate PublicKey Digest Signature)}
  {pt : Point PublicKey Digest Signature}

/-- The DAG in memory holds the certificate. -/
def State.Held (s : State PublicKey Digest Signature)
    (x : Certificate PublicKey Digest Signature) : Prop :=
  s.dag.find x.round x.origin = some (x.digest, x)

/-- The certificate is too old to be committed. -/
def State.TooOld (s : State PublicKey Digest Signature) (gcDepth : ℕ)
    (x : Certificate PublicKey Digest Signature) : Prop :=
  x.round + gcDepth < s.lastCommittedRound

/-! ## What the search of `order_dag` lists -/

/-- A step of the search: to a parent that is held, and not the last committed
    certificate of its author. -/
def Visit (D : CausalDag Digest Signature p.committee) (s : State PublicKey Digest Signature)
    (x y : Certificate PublicKey Digest Signature) : Prop :=
  D.Parent x y ∧ s.Held y ∧ s.lastCommitted.lookup y.origin ≠ some y.round

theorem visit_iff (hd : Redelivery D received) (h : Inv p received s)
    (hx : Known p.committee received x) :
    Visit D s x y ↔ (y.digest, y) ∈ children s x := by
  constructor
  · rintro ⟨hpar, hheld, hlc⟩
    refine List.mem_filterMap.mpr ⟨y.digest, hpar.2, ?_⟩
    exact (heldParent_eq_some hd h hx hpar.2).mpr ⟨hpar.1, rfl, rfl, hheld, hlc⟩
  · intro hy
    obtain ⟨d, hdx, hheld⟩ := List.mem_filterMap.mp hy
    obtain ⟨hv, hdig, -, hfind, hlc⟩ := (heldParent_eq_some (D := D) hd h hx hdx).mp hheld
    exact ⟨⟨hv, hdig ▸ hdx⟩, hfind, hlc⟩

theorem Visits.reach (h : Relation.ReflTransGen (Visit D s) x y) : D.Reach x y :=
  Relation.ReflTransGen.mono (fun _ _ hv => hv.1) _ _ h

/-- `order_dag` lists what the search visits and is not too old, each certificate once, in
    the order of the rounds. -/
theorem orderDag_visits (hok : Point.Ok D received pt)
    (hxs : orderDag p pt.leader pt.state = some xs) :
    (∀ y, y ∈ xs ↔ Relation.ReflTransGen (Visit D pt.state) pt.leader y ∧
        ¬ pt.state.TooOld p.gcDepth y) ∧
      xs.Nodup ∧ xs.Pairwise fun x y => x.round ≤ y.round := by
  obtain ⟨hd, hinv, hl, -⟩ := hok
  simp only [orderDag, Option.map_eq_some_iff] at hxs
  obtain ⟨listed, hdfs, rfl⟩ := hxs
  -- what is listed is visited
  have hvisited : ∀ y ∈ listed, Known p.committee received y ∧
      Relation.ReflTransGen (Visit D pt.state) pt.leader y := by
    refine forall_mem_dfs (fun y => Known p.committee received y ∧
      Relation.ReflTransGen (Visit D pt.state) pt.leader y) ?_ _ _ _ _ ?_ hdfs
    · rintro x ⟨hx, hlx⟩ q hq
      obtain ⟨hpar, hdig, -⟩ := mem_children (D := D) hd hinv hx hq
      refine ⟨(known_of_mem_children (D := D) hd hinv hx hq).1, hlx.tail ?_⟩
      exact (visit_iff hd hinv hx).mpr (hdig ▸ hq)
    · simpa using ⟨hl, Relation.ReflTransGen.refl⟩
  -- and what is visited is listed
  have hlisted : ∀ y, Relation.ReflTransGen (Visit D pt.state) pt.leader y → y ∈ listed := by
    intro y hy
    induction hy with
    | refl => exact mem_dfs_head hdfs
    | @tail x y _ hv hx =>
        have hxk := (hvisited x hx).1
        rcases exists_mem_dfs_of_succ hdfs hx ((visit_iff hd hinv hxk).mp hv) with
          hseen | ⟨z, hz, w, hw, hzw⟩
        · exact absurd hseen List.not_mem_nil
        · obtain ⟨hpar, hdig, -⟩ := mem_children (D := D) hd hinv (hvisited z hz).1 hzw
          rwa [D.digest_inj y w hv.1.1 hpar.1 hdig]
  refine ⟨fun y => ?_, ?_, List.pairwise_insertionSort _ _⟩
  · rw [List.mem_insertionSort, List.mem_filter, decide_eq_true_eq, State.TooOld, not_lt]
    exact and_congr_left' ⟨fun hy => (hvisited y hy).2, hlisted y⟩
  · rw [(List.perm_insertionSort _ _).nodup_iff]
    refine List.Nodup.filter _ ?_
    -- the leader is above everything else
    simp only [dfs, Option.map_eq_some_iff] at hdfs
    obtain ⟨rest, hrest, rfl⟩ := hdfs
    have hpush := nodup_dfsPush Certificate.digest [] []
      (fun q hq => (mem_children (D := D) hd hinv hl hq).2.1) List.nodup_nil (by simp)
    have hst : ∀ y ∈ (dfsPush (children pt.state pt.leader) [] []).1,
        Known p.committee received y ∧ y.round < pt.leader.round := by
      intro y hy
      rcases mem_dfsPush hy with hy | ⟨k, hy⟩
      · exact absurd hy List.not_mem_nil
      · obtain ⟨hk, hround⟩ := known_of_mem_children (D := D) hd hinv hl hy
        exact ⟨hk, by rw [← hround]; exact Nat.lt_succ_self _⟩
    have hstep : ∀ x, (Known p.committee received x ∧ x.round < pt.leader.round) →
        ∀ q ∈ children pt.state x, q.1 = q.2.digest ∧
          (Known p.committee received q.2 ∧ q.2.round < pt.leader.round) := by
      rintro x ⟨hx, hlt⟩ q hq
      have := known_of_mem_children (D := D) hd hinv hx hq
      exact ⟨(mem_children (D := D) hd hinv hx hq).2.1, this.1, by omega⟩
    rw [List.nodup_cons]
    constructor
    · intro hmem
      have := forall_mem_dfs (fun x => Known p.committee received x ∧ x.round < pt.leader.round)
        (fun x hx q hq => (hstep x hx q hq).2) _ _ _ _ hst hrest _ hmem
      omega
    · exact (nodup_dfs _ hstep hrest hst hpush.1 hpush.2.1).1.of_map

/-- The leader itself is listed. -/
theorem leader_mem_sequence (hok : Point.Ok D received pt)
    (hxs : orderDag p pt.leader pt.state = some xs) : pt.leader ∈ xs := by
  refine ((orderDag_visits hok hxs).1 _).mpr ⟨Relation.ReflTransGen.refl, ?_⟩
  have := hok.lt_round
  unfold State.TooOld
  omega

theorem exists_sequence (hok : Point.Ok D received pt) :
    ∃ xs, orderDag p pt.leader pt.state = some xs ∧ pt.sequence p = xs := by
  obtain ⟨xs, hxs, -⟩ := orderDag_spec (D := D) hok.delivery hok.inv hok.known
    (by have := hok.lt_round; omega)
  exact ⟨xs, hxs, by rw [Point.sequence, hxs]; rfl⟩

/-! ## What the state remembers of the output -/

/-- The last committed certificate of an author has been output. -/
def Remembered (D : CausalDag Digest Signature p.committee)
    (s : State PublicKey Digest Signature)
    (out : List (Certificate PublicKey Digest Signature)) : Prop :=
  ∀ y, D.Vertex y → 0 < y.round → s.lastCommitted.lookup y.origin = some y.round → y ∈ out

theorem remembered_initial (D : CausalDag Digest Signature p.committee) :
    Remembered D (State.new (Certificate.genesis p.committee)) [] := by
  intro y _ hpos hlook
  rw [lookup_genesis] at hlook
  obtain ⟨g, hg, hr⟩ := Option.map_eq_some_iff.mp hlook
  have := Certificate.round_genesis (List.mem_of_find?_eq_some hg)
  omega

theorem Remembered.commit (hok : Point.Ok D received pt)
    (hxs : orderDag p pt.leader pt.state = some xs)
    (h : Remembered D pt.state pt.output) :
    Remembered D (pt.state.updates xs p.gcDepth) (pt.output ++ xs) := by
  intro y hy hpos hlook
  rcases lookup_updates hlook with hlook | ⟨x, hx, ho, hr⟩
  · exact List.mem_append_left _ (h y hy hpos hlook)
  · have hreach := Visits.reach (((orderDag_visits hok hxs).1 x).mp hx).1
    have hvx : D.Vertex x := hreach.vertex (hok.delivery.vertex_of_known hok.known)
    rw [CausalDag.unique_vertex hy hvx hr.symm ho.symm]
    exact List.mem_append_right _ hx

theorem lastCommittedRound_le_updates (hok : Point.Ok D received pt)
    (hxs : orderDag p pt.leader pt.state = some xs) :
    pt.state.lastCommittedRound ≤ (pt.state.updates xs p.gcDepth).lastCommittedRound := by
  have hlt := hok.lt_round
  rw [lastCommittedRound_updates hok.inv (leader_mem_sequence hok hxs) ?_ hlt.le]
  · exact hlt.le
  · intro x hx
    exact (Visits.reach (((orderDag_visits hok hxs).1 x).mp hx).1).round_le
      (hok.delivery.vertex_of_known hok.known)

/-! ## Dependencies -/

/-- No ancestor of the leader that has not been output and is not too old has been dropped
    from memory. -/
def NoneDropped (D : CausalDag Digest Signature p.committee)
    (pt : Point PublicKey Digest Signature) : Prop :=
  ∀ a, D.Reach pt.leader a → 0 < a.round → ¬ pt.state.TooOld p.gcDepth a → a ∉ pt.output →
    pt.state.Held a

/-- Every certificate that is output comes after its ancestors, the genesis certificates
    and those that are too old apart. -/
def AncestorsFirst (D : CausalDag Digest Signature p.committee)
    (pt : Point PublicKey Digest Signature) : Prop :=
  ∀ pre c post, pt.sequence p = pre ++ c :: post → ∀ a, D.Reach c a → a ≠ c → 0 < a.round →
    ¬ pt.state.TooOld p.gcDepth a → a ∈ pt.output ++ pre

/-- The output is closed under ancestors that are not too old. -/
def AncestorClosed (D : CausalDag Digest Signature p.committee)
    (s : State PublicKey Digest Signature)
    (out : List (Certificate PublicKey Digest Signature)) : Prop :=
  ∀ c ∈ out, ∀ a, D.Reach c a → 0 < a.round → ¬ s.TooOld p.gcDepth a → a ∈ out

/-- With nothing dropped, the ancestors of what is listed are listed, or have been output. -/
theorem mem_of_reach_of_noneDropped (hok : Point.Ok D received pt)
    (hxs : orderDag p pt.leader pt.state = some xs) (hdrop : NoneDropped D pt)
    (hrem : Remembered D pt.state pt.output)
    (hclosed : AncestorClosed D pt.state pt.output) {c a : Certificate PublicKey Digest Signature}
    (hc : c ∈ xs) (hreach : D.Reach c a) (hpos : 0 < a.round)
    (hold : ¬ pt.state.TooOld p.gcDepth a) : a ∈ pt.output ∨ a ∈ xs := by
  have hmem := (orderDag_visits hok hxs).1
  have hvl := hok.delivery.vertex_of_known hok.known
  induction hreach with
  | refl => exact Or.inr hc
  | @tail y a hcy hstep ih =>
      have hly : D.Reach pt.leader y := (Visits.reach ((hmem c).mp hc).1).trans hcy
      have hround := hstep.round (hly.vertex hvl)
      rcases ih (by omega) (by unfold State.TooOld at hold ⊢; omega) with hy | hy
      · exact Or.inl (hclosed y hy a (Relation.ReflTransGen.single hstep) hpos hold)
      · by_cases hout : a ∈ pt.output
        · exact Or.inl hout
        · -- the search goes from `y` to `a`
          have hheld := hdrop a (hly.tail hstep) hpos hold hout
          have hlook : pt.state.lastCommitted.lookup a.origin ≠ some a.round :=
            fun hlook => hout (hrem a hstep.1 hpos hlook)
          exact Or.inr ((hmem a).mpr ⟨((hmem y).mp hy).1.tail ⟨hstep, hheld, hlook⟩, hold⟩)

theorem kept_closed : Kept D (fun s out => Remembered D s out ∧ AncestorClosed D s out)
    (NoneDropped D) where
  initial := ⟨remembered_initial D, by simp [AncestorClosed]⟩
  add _ _ _ h := h
  commit received pt xs hok hxs hdrop h := by
    refine ⟨h.1.commit hok hxs, fun c hc a hreach hpos hold => ?_⟩
    have hle := lastCommittedRound_le_updates hok hxs
    have hold' : ¬ pt.state.TooOld p.gcDepth a := by
      unfold State.TooOld at hold ⊢
      omega
    rcases List.mem_append.mp hc with hc | hc
    · exact List.mem_append_left _ (h.2 c hc a hreach hpos hold')
    · exact List.mem_append.mpr
        (mem_of_reach_of_noneDropped hok hxs hdrop h.1 h.2 hc hreach hpos hold')

theorem ancestorsFirst_of_noneDropped (hok : Point.Ok D received pt) (hdrop : NoneDropped D pt)
    (hrem : Remembered D pt.state pt.output) (hclosed : AncestorClosed D pt.state pt.output) :
    AncestorsFirst D pt := by
  intro pre c post hseq a hreach hne hpos hold
  obtain ⟨xs, hxs, hxs'⟩ := exists_sequence hok
  rw [hxs'] at hseq
  obtain ⟨hmem, -, hsorted⟩ := orderDag_visits hok hxs
  have hc : c ∈ xs := by rw [hseq]; simp
  rcases mem_of_reach_of_noneDropped hok hxs hdrop hrem hclosed hc hreach hpos hold with ha | ha
  · exact List.mem_append_left _ ha
  · -- it is of a lower round, so it is listed earlier
    have hvc : D.Vertex c := (Visits.reach ((hmem c).mp hc).1).vertex
      (hok.delivery.vertex_of_known hok.known)
    have hlt : a.round < c.round := by
      by_contra hge
      exact hne (hreach.eq_of_round hvc (by omega))
    rw [hseq] at ha hsorted
    rcases List.mem_append.mp ha with ha | ha
    · exact List.mem_append_right _ ha
    · rcases List.mem_cons.mp ha with rfl | ha
      · exact absurd rfl hne
      · have := (List.pairwise_cons.mp (List.pairwise_append.mp hsorted).2.1).1 a ha
        omega

theorem noneDropped_of_ancestorsFirst (hok : Point.Ok D received pt)
    (hfirst : AncestorsFirst D pt) : NoneDropped D pt := by
  intro a hreach hpos hold hout
  obtain ⟨xs, hxs, hxs'⟩ := exists_sequence hok
  by_cases hal : a = pt.leader
  · subst hal
    exact hok.inv.row_complete hok.known hok.lt_round.le
  · obtain ⟨pre, post, hsplit⟩ := List.append_of_mem (leader_mem_sequence hok hxs)
    have ha := hfirst pre pt.leader post (by rw [hxs', hsplit]) a hreach hal hpos hold
    have hax : a ∈ xs := by
      rw [hsplit]
      exact List.mem_append_left _ ((List.mem_append.mp ha).resolve_left hout)
    rcases Relation.ReflTransGen.cases_tail (((orderDag_visits hok hxs).1 a).mp hax).1 with
      rfl | ⟨y, -, hv⟩
    · exact absurd rfl hal
    · exact hv.2.1

/-- Commit completeness: exactly if no ancestor of a leader has been dropped from memory
    when the leader is committed, every certificate is output after its ancestors. -/
theorem ancestorsFirst_iff (p : Params PublicKey)
    (D : CausalDag Digest Signature p.committee)
    (received : List (Certificate PublicKey Digest Signature)) (hd : Delivery D received) :
    (∃ log, run p received = some log ∧
        log.output = (points p received).flatMap (·.sequence p)) ∧
      ((∀ pt ∈ points p received, AncestorsFirst D pt) ↔
        ∀ pt ∈ points p received, NoneDropped D pt) := by
  obtain ⟨log, hrun, -⟩ := run_inv hd.redelivery
  refine ⟨⟨log, hrun, output_eq hrun⟩, fun hfirst pt hpt => ?_, fun hdrop pt hpt => ?_⟩
  · obtain ⟨pre, hok⟩ := ok_of_mem_points hd.redelivery hpt
    exact noneDropped_of_ancestorsFirst hok (hfirst pt hpt)
  · obtain ⟨⟨pre, hok⟩, hrem, hclosed⟩ :=
      (run_points kept_closed hd.redelivery hdrop).1 pt hpt
    exact ancestorsFirst_of_noneDropped hok (hdrop pt hpt) hrem hclosed

open Toy

theorem ancestorsFirst_iff_sample :
    (∃ log, run Sample.params Sample.orderEarly = some log ∧
        log.output = (points Sample.params Sample.orderEarly).flatMap (·.sequence Sample.params)) ∧
      ((∀ pt ∈ points Sample.params Sample.orderEarly, AncestorsFirst Sample.dag pt) ↔
        ∀ pt ∈ points Sample.params Sample.orderEarly, NoneDropped Sample.dag pt) :=
  ancestorsFirst_iff Sample.params Sample.dag Sample.orderEarly
    Sample.delivery_orderEarly

section Dropped

open Sample

theorem points_orderEarly : ∀ pt ∈ points params orderEarly,
    pt.state.lastCommittedRound ≤ 50 ∧ cert 1 2 [0] ∉ pt.output ++ pt.sequence params := by
  decide +kernel

theorem mem_points_orderEarly : ∃ pt ∈ points params orderEarly,
    cert 2 1 [0, 2] ∈ pt.sequence params := by
  decide +kernel

/-- The certificate of authority 2 in round 1 is dropped when its certificate of round 2 is
    committed, and the child that authority 1 issued in round 2 is output without it. -/
theorem ancestor_dropped :
    ¬ ∀ (p : Params ℕ) (D : CausalDag ℕ Unit p.committee) (received : List (Certificate ℕ ℕ Unit)),
        Delivery D received →
        ∀ pt ∈ points p received, AncestorsFirst D pt := by
  intro h
  obtain ⟨pt, hpt, hmem⟩ := mem_points_orderEarly
  obtain ⟨hround, hnot⟩ := points_orderEarly pt hpt
  obtain ⟨pre, post, hseq⟩ := List.append_of_mem hmem
  have hparent : Sample.dag.Parent (cert 2 1 [0, 2]) (cert 1 2 [0]) :=
    ⟨Or.inl (by decide +kernel : cert 1 2 [0] ∈ orderEarly), by decide +kernel⟩
  have hyoung : ¬ pt.state.TooOld params.gcDepth (cert 1 2 [0]) := by
    show ¬ 1 + 50 < pt.state.lastCommittedRound
    omega
  have key := h params Sample.dag orderEarly Sample.delivery_orderEarly pt hpt pre _ post
    hseq (cert 1 2 [0]) (Relation.ReflTransGen.single hparent) (by decide +kernel) (by decide)
      hyoung
  rw [hseq] at hnot
  rcases List.mem_append.mp key with key | key
  · exact hnot (List.mem_append_left _ key)
  · exact hnot (List.mem_append_right _ (List.mem_append_left _ key))

end Dropped

/-! ## Certificates that come again -/

/-- No certificate that the search gets to through new certificates has a parent that has
    been output and is back in memory, though a newer one of its author is committed. -/
def NoneRevived (D : CausalDag Digest Signature p.committee)
    (pt : Point PublicKey Digest Signature) : Prop :=
  ∀ x, Relation.ReflTransGen (fun x y => D.Parent x y ∧ pt.state.Held y ∧ y ∉ pt.output)
      pt.leader x →
    ∀ y, D.Parent x y → y ∈ pt.output → pt.state.Held y → ¬ pt.state.TooOld p.gcDepth y →
      pt.state.lastCommitted.lookup y.origin = some y.round

/-- With nothing revived, the search stays among new certificates. -/
theorem new_of_visits (hok : Point.Ok D received pt)
    (hold : ∀ y ∈ pt.output, y.round ≤ pt.state.lastCommittedRound) (hrev : NoneRevived D pt)
    (hy : Relation.ReflTransGen (Visit D pt.state) pt.leader y)
    (hyoung : ¬ pt.state.TooOld p.gcDepth y) :
    Relation.ReflTransGen (fun x y => D.Parent x y ∧ pt.state.Held y ∧ y ∉ pt.output)
      pt.leader y ∧ y ∉ pt.output := by
  induction hy with
  | refl =>
      refine ⟨Relation.ReflTransGen.refl, fun hmem => ?_⟩
      have := hold _ hmem
      have := hok.lt_round
      omega
  | @tail x y hlx hv ih =>
      have hvx : D.Vertex x := (Visits.reach hlx).vertex (hok.delivery.vertex_of_known hok.known)
      have hround := hv.1.round hvx
      obtain ⟨hnew, -⟩ := ih (by unfold State.TooOld at hyoung ⊢; omega)
      have hout : y ∉ pt.output := fun hmem =>
        hv.2.2 (hrev x hnew y hv.1 hmem hv.2.1 hyoung)
      exact ⟨hnew.tail ⟨hv.1, hv.2.1, hout⟩, hout⟩

/-- The search gets to what can be got to through new certificates. -/
theorem visits_of_new (hok : Point.Ok D received pt) (hrem : Remembered D pt.state pt.output)
    (hx : Relation.ReflTransGen (fun x y => D.Parent x y ∧ pt.state.Held y ∧ y ∉ pt.output)
      pt.leader x) (hpos : 0 < x.round) : Relation.ReflTransGen (Visit D pt.state) pt.leader x := by
  induction hx with
  | refl => exact Relation.ReflTransGen.refl
  | @tail x y hlx hv ih =>
      have hreach : D.Reach pt.leader x := Relation.ReflTransGen.mono (fun _ _ hv => hv.1) _ _ hlx
      have hround := hv.1.round (hreach.vertex (hok.delivery.vertex_of_known hok.known))
      exact (ih (by omega)).tail
        ⟨hv.1, hv.2.1, fun hlook => hv.2.2 (hrem y hv.1.1 hpos hlook)⟩

theorem kept_remembered : Kept D (Remembered D) fun _ => True where
  initial := remembered_initial D
  add _ _ _ h := h
  commit _ _ _ hok hxs _ h := h.commit hok hxs

theorem kept_nodup : Kept D (fun s out => out.Nodup ∧ ∀ y ∈ out, y.round ≤ s.lastCommittedRound)
    (NoneRevived D) where
  initial := ⟨List.nodup_nil, by simp⟩
  add _ _ _ h := h
  commit received pt xs hok hxs hrev h := by
    obtain ⟨hmem, hnodup, -⟩ := orderDag_visits hok hxs
    have hvl := hok.delivery.vertex_of_known hok.known
    have hle : ∀ x ∈ xs, x.round ≤ pt.leader.round := fun x hx =>
      (Visits.reach ((hmem x).mp hx).1).round_le hvl
    have hround := lastCommittedRound_updates hok.inv (leader_mem_sequence hok hxs) hle
      hok.lt_round.le
    refine ⟨List.nodup_append.mpr ⟨h.1, hnodup, ?_⟩, ?_⟩
    · intro x hx y hy hxy
      obtain ⟨hvisits, hyoung⟩ := (hmem y).mp hy
      exact (new_of_visits hok h.2 hrev hvisits hyoung).2 (hxy ▸ hx)
    · intro y hy
      rw [hround]
      rcases List.mem_append.mp hy with hy | hy
      · exact (h.2 y hy).trans hok.lt_round.le
      · exact hle y hy

theorem noneRevived_of_nodup (hok : Point.Ok D received pt)
    (hrem : Remembered D pt.state pt.output) (hnodup : (pt.output ++ pt.sequence p).Nodup) :
    NoneRevived D pt := by
  intro x hx y hpar hout hheld hyoung
  by_contra hlook
  obtain ⟨xs, hxs, hxs'⟩ := exists_sequence hok
  have hreach : D.Reach pt.leader x := Relation.ReflTransGen.mono (fun _ _ hv => hv.1) _ _ hx
  have hround := hpar.round (hreach.vertex (hok.delivery.vertex_of_known hok.known))
  have hvisits := (visits_of_new hok hrem hx (by omega)).tail ⟨hpar, hheld, hlook⟩
  have hy : y ∈ pt.sequence p := by
    rw [hxs']
    exact ((orderDag_visits hok hxs).1 y).mpr ⟨hvisits, hyoung⟩
  exact (List.nodup_append.mp hnodup).2.2 y hout y hy rfl

/-- No double commit: exactly if the search does not come across a certificate that was
    output and delivered again, nothing is output twice. -/
theorem nodup_output_iff (p : Params PublicKey)
    (D : CausalDag Digest Signature p.committee)
    (received : List (Certificate PublicKey Digest Signature)) (hd : Redelivery D received) :
    ∃ log, run p received = some log ∧
      (log.output.Nodup ↔ ∀ pt ∈ points p received, NoneRevived D pt) := by
  obtain ⟨log, hrun, -⟩ := run_inv hd
  refine ⟨log, hrun, fun hnodup pt hpt => ?_, fun hrev => ?_⟩
  · obtain ⟨⟨pre, hok⟩, hrem⟩ :=
      (run_points kept_remembered hd fun _ _ => trivial).1 pt hpt
    exact noneRevived_of_nodup hok hrem
      (hnodup.sublist (prefix_of_mem_pointsFrom hrun hpt).sublist)
  · obtain ⟨-, log', hrun', -, hnodup, -⟩ := run_points kept_nodup hd hrev
    rwa [Option.some.inj (hrun.symm.trans hrun')] at *

/-! ## A certificate that is committed twice

Authority 0 is a quorum on its own; the leaders of rounds 2, 4 and 6 are 2, 1 and 0. The
certificate of authority 0 in round 2 is committed with the leader of round 4. -/

namespace Revival

open Sample

/-- What is delivered until the leader of round 4 is committed. -/
def firstPart : List (Certificate ℕ ℕ Unit) :=
  [cert 1 0 [0], cert 2 0 [0], cert 2 2 [0], cert 3 0 [0, 2], cert 3 2 [0], cert 4 0 [0],
    cert 4 1 [0], cert 4 2 [0, 2], cert 5 0 [0, 1, 2], cert 6 0 [0], cert 7 0 [0]]

/-- What is delivered until the leader of round 6 is committed. -/
def lastPart : List (Certificate ℕ ℕ Unit) := [cert 8 0 [0], cert 9 0 [0]]

/-- One certificate comes again after it was committed. -/
def again : List (Certificate ℕ ℕ Unit) := firstPart ++ [cert 2 0 [0]] ++ lastPart

def dag : CausalDag ℕ Unit params.committee :=
  CausalDag.ofList (firstPart ++ lastPart) (by decide +kernel) (by decide +kernel)
    (by decide +kernel) (by decide +kernel) (by decide +kernel)

theorem redelivery_again : Redelivery dag again :=
  Redelivery.ofList (l := firstPart ++ lastPart) rfl (by decide +kernel) (by decide +kernel)

end Revival

theorem nodup_output_iff_sample :
    ∃ log, run Sample.params Revival.again = some log ∧
      (log.output.Nodup ↔ ∀ pt ∈ points Sample.params Revival.again, NoneRevived Revival.dag pt) :=
  nodup_output_iff Sample.params Revival.dag Revival.again Revival.redelivery_again

/-- The certificate of authority 0 in round 2 is back in memory when the leader of round 6
    is committed, and it is output a second time. -/
theorem output_twice :
    ¬ ∀ (p : Params ℕ) (D : CausalDag ℕ Unit p.committee) (received : List (Certificate ℕ ℕ Unit)),
        Redelivery D received →
        ∀ log, run p received = some log → log.output.Nodup := by
  intro h
  obtain ⟨log, hrun, hnodup⟩ : ∃ log, run Sample.params Revival.again = some log ∧
      ¬ log.output.Nodup := by
    have key : ∃ log ∈ run Sample.params Revival.again, ¬ log.output.Nodup := by decide +kernel
    exact key
  exact hnodup (h Sample.params Revival.dag Revival.again Revival.redelivery_again
    log hrun)

end DagBft.Consensus
