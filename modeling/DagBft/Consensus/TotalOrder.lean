/-
  What is output, as a function of the committed leaders.

  `deliver` flattens leaders over the whole DAG: a leader outputs the part of its causal
  history above the last commit of each author and within the garbage collection depth.
  `orderDag_eq` shows that `order_dag` computes `flatten`, provided that the DAG in
  memory holds nothing older than the last commit of its author where the search looks
  (`OnTime`). Nothing in the code ensures this: `order_dag` skips a certificate only if it
  is the last committed one of its author, so a certificate that arrives late is output
  by those who had not yet committed past it, and by those who had, but not by those who
  have already pruned it.
-/
import DagBft.Consensus.Agreement

namespace DagBft.Consensus

open Toy

variable {PublicKey Digest Signature : Type} [LinearOrder PublicKey] [LinearOrder Digest]

/-! ## Frontiers -/

/-- What of the state the output depends on: the last committed rounds. -/
structure Frontier (PublicKey : Type) where
  committed : PublicKey → ℕ
  last : ℕ

/-- The frontier after a certificate is committed. -/
def Frontier.bump (f : Frontier PublicKey) (x : Certificate PublicKey Digest Signature) :
    Frontier PublicKey where
  committed a := if a = x.origin then max (f.committed a) x.round else f.committed a
  last := max f.last x.round

def State.frontier (s : State PublicKey Digest Signature) : Frontier PublicKey :=
  ⟨s.committedOf, s.lastCommittedRound⟩

theorem frontier_update {s : State PublicKey Digest Signature} (h : s.IsMax)
    (x : Certificate PublicKey Digest Signature) (gcDepth : ℕ) :
    (s.update x gcDepth).frontier = s.frontier.bump x := by
  unfold State.frontier Frontier.bump
  rw [State.lastCommittedRound_update h]
  congr 1
  funext a
  exact State.committedOf_update a

theorem frontier_updates {s : State PublicKey Digest Signature} (h : s.IsMax)
    (xs : List (Certificate PublicKey Digest Signature)) (gcDepth : ℕ) :
    (s.updates xs gcDepth).frontier = xs.foldl Frontier.bump s.frontier := by
  induction xs generalizing s with
  | nil => rfl
  | cons x xs ih =>
      rw [List.foldl_cons, ← frontier_update h x gcDepth]
      exact ih State.isMax_update

/-- After an update the DAG holds nothing older than the last commit of its author. -/
theorem committedOf_le_of_find_updates {s : State PublicKey Digest Signature}
    {xs : List (Certificate PublicKey Digest Signature)} {gcDepth : ℕ} (hne : xs ≠ []) {r : ℕ}
    {n : PublicKey} {v : Digest × Certificate PublicKey Digest Signature}
    (hv : (s.updates xs gcDepth).dag.find r n = some v) :
    (s.updates xs gcDepth).committedOf n ≤ r := by
  induction xs using List.reverseRecOn with
  | nil => exact absurd rfl hne
  | append_singleton xs x _ =>
      unfold State.updates at hv ⊢
      rw [List.foldl_append] at hv ⊢
      change (State.update _ x gcDepth).dag.find r n = some v at hv
      change (State.update _ x gcDepth).committedOf n ≤ r
      rw [State.find_update] at hv
      split at hv
      · rename_i h
        exact h.1
      · exact absurd hv (by simp)

variable [AsBytes PublicKey] [AsBytes Digest] [Sha512 Digest]
  [Inhabited PublicKey] [Inhabited Digest] [Inhabited Signature]

omit [Inhabited PublicKey] [Inhabited Digest] [Inhabited Signature] in
theorem frontier_add (s : State PublicKey Digest Signature)
    (c : Certificate PublicKey Digest Signature) : (s.add c).frontier = s.frontier := rfl

variable {p : Params PublicKey}

/-! ## Delivery over the whole DAG -/

namespace CausalDag

/-- A vertex that is above the frontier and not garbage collected. -/
def Fresh (gcDepth : ℕ) (f : Frontier PublicKey) (y : Certificate PublicKey Digest Signature) :
    Prop :=
  f.last ≤ y.round + gcDepth ∧ f.committed y.origin < y.round

open Classical in
/-- The parents of `x` that are left to output. -/
noncomputable def freshParents (D : CausalDag Digest Signature p.committee)
    (f : Frontier PublicKey) (x : Certificate PublicKey Digest Signature) :
    List (Digest × Certificate PublicKey Digest Signature) :=
  x.header.parents.toList.filterMap fun d =>
    if h : ∃ y, D.Vertex y ∧ y.digest = d ∧ Fresh p.gcDepth f y then some (d, h.choose) else none

open Classical in
/-- The sub-DAG of a leader above the frontier, in the order of the search and then by
    round. -/
noncomputable def flatten (D : CausalDag Digest Signature p.committee)
    (f : Frontier PublicKey) (l : Certificate PublicKey Digest Signature) :
    List (Certificate PublicKey Digest Signature) :=
  if h : ∃ xs n, dfs (D.freshParents f) n [l] [] = some xs then
    h.choose.insertionSort fun x y => x.round ≤ y.round
  else []

/-- Deliver leaders one after the other. -/
noncomputable def deliver (D : CausalDag Digest Signature p.committee)
    (acc : Frontier PublicKey × List (Certificate PublicKey Digest Signature))
    (ls : List (Certificate PublicKey Digest Signature)) :
    Frontier PublicKey × List (Certificate PublicKey Digest Signature) :=
  ls.foldl (fun acc l => ((D.flatten acc.1 l).foldl Frontier.bump acc.1,
    acc.2 ++ D.flatten acc.1 l)) acc

variable {D : CausalDag Digest Signature p.committee} {f : Frontier PublicKey}

theorem flatten_eq {l : Certificate PublicKey Digest Signature} {n : ℕ}
    {xs : List (Certificate PublicKey Digest Signature)}
    (h : dfs (D.freshParents f) n [l] [] = some xs) :
    D.flatten f l = xs.insertionSort fun x y => x.round ≤ y.round := by
  have hex : ∃ xs n, dfs (D.freshParents f) n [l] [] = some xs := ⟨xs, n, h⟩
  obtain ⟨m, hm⟩ := hex.choose_spec
  rw [flatten, dif_pos hex, dfs_fuel hm h]

theorem deliver_cons (acc : Frontier PublicKey × List (Certificate PublicKey Digest Signature))
    (l : Certificate PublicKey Digest Signature)
    (ls : List (Certificate PublicKey Digest Signature)) :
    D.deliver acc (l :: ls) = D.deliver ((D.flatten acc.1 l).foldl Frontier.bump acc.1,
      acc.2 ++ D.flatten acc.1 l) ls := rfl

theorem deliver_append (acc : Frontier PublicKey × List (Certificate PublicKey Digest Signature))
    (ls ls' : List (Certificate PublicKey Digest Signature)) :
    D.deliver acc (ls ++ ls') = D.deliver (D.deliver acc ls) ls' :=
  List.foldl_append

theorem prefix_deliver (acc : Frontier PublicKey × List (Certificate PublicKey Digest Signature))
    (ls : List (Certificate PublicKey Digest Signature)) : acc.2 <+: (D.deliver acc ls).2 := by
  induction ls generalizing acc with
  | nil => exact List.prefix_refl _
  | cons l ls ih =>
      rw [deliver_cons]
      exact (List.prefix_append _ _).trans (ih (_, _))

/-- What is output before does not change what leaders add. -/
theorem deliver_out (f : Frontier PublicKey) (out : List (Certificate PublicKey Digest Signature))
    (ls : List (Certificate PublicKey Digest Signature)) :
    D.deliver (f, out) ls = ((D.deliver (f, []) ls).1, out ++ (D.deliver (f, []) ls).2) := by
  induction ls generalizing f out with
  | nil => simp [deliver]
  | cons l ls ih =>
      rw [deliver_cons, deliver_cons, ih, ih _ ([] ++ _)]
      simp

/-- More leaders extend the output. -/
theorem deliver_prefix {acc : Frontier PublicKey × List (Certificate PublicKey Digest Signature)}
    {ls ls' : List (Certificate PublicKey Digest Signature)} (h : ls <+: ls') :
    (D.deliver acc ls).2 <+: (D.deliver acc ls').2 := by
  obtain ⟨rest, rfl⟩ := h
  rw [deliver_append]
  exact prefix_deliver _ rest

end CausalDag

/-! ## `order_dag` computes `flatten` -/

/-- Where the search from `l` looks, the DAG in memory holds nothing older than the last
    commit of its author. -/
def NoLate (D : CausalDag Digest Signature p.committee) (s : State PublicKey Digest Signature)
    (l : Certificate PublicKey Digest Signature) : Prop :=
  ∀ x, D.Reach l x → s.dag.find x.round x.origin = some (x.digest, x) →
    s.lastCommittedRound ≤ x.round + p.gcDepth → s.committedOf x.origin ≤ x.round

variable {D : CausalDag Digest Signature p.committee}
  {received : List (Certificate PublicKey Digest Signature)}
  {s : State PublicKey Digest Signature} {c l x y : Certificate PublicKey Digest Signature}

/-- A known vertex of round 0 has an entry in `last_committed`. -/
theorem Inv.isSome_of_round_zero (hd : Redelivery D received) (h : Inv p received s)
    (hy : Known p.committee received y) (h0 : y.round = 0) :
    (s.lastCommitted.lookup y.origin).isSome := by
  rcases hy with hy | hy
  · have := D.round_pos y (hd.mem y hy)
    omega
  · obtain ⟨name, hname, rfl⟩ := Certificate.mem_genesis.mp hy
    exact h.isSome_committed name hname

/-- Not pruned and not the last commit of its author: above the last commit. -/
theorem held_iff_fresh (hd : Redelivery D received) (h : Inv p received s) (hno : NoLate D s l)
    (hly : D.Reach l y) (hy : Known p.committee received y)
    (hgc : s.lastCommittedRound ≤ y.round + p.gcDepth) :
    s.dag.find y.round y.origin = some (y.digest, y) ∧
        s.lastCommitted.lookup y.origin ≠ some y.round ↔
      s.committedOf y.origin < y.round := by
  constructor
  · rintro ⟨hfind, hne⟩
    refine lt_of_le_of_ne (hno y hly hfind hgc) ?_
    intro heq
    unfold State.committedOf at heq
    cases hlook : s.lastCommitted.lookup y.origin with
    | none =>
        rw [hlook] at heq
        have := h.isSome_of_round_zero hd hy heq.symm
        rw [hlook] at this
        exact absurd this (by simp)
    | some r =>
        rw [hlook, Option.getD_some] at heq
        exact hne (heq ▸ hlook)
  · intro hlt
    refine ⟨h.complete y hy hlt.le hgc, ?_⟩
    intro hlook
    unfold State.committedOf at hlt
    rw [hlook, Option.getD_some] at hlt
    omega

/-- What the search keeps of the children. -/
theorem filter_children_eq (hd : Redelivery D received) (h : Inv p received s) (hno : NoLate D s l)
    (hlx : D.Reach l x) (hx : Known p.committee received x) :
    (children s x).filter (fun q => decide (s.lastCommittedRound ≤ q.2.round + p.gcDepth)) =
      D.freshParents s.frontier x := by
  unfold children CausalDag.freshParents
  rw [List.filter_filterMap]
  refine List.filterMap_congr fun d hdx => ?_
  refine Option.ext fun q => ?_
  obtain ⟨k, y⟩ := q
  have hvertex : D.Vertex y → y.digest = d → D.Reach l y ∧ Known p.committee received y := by
    rintro hvy rfl
    have hpar : D.Reach x y := Relation.ReflTransGen.single ⟨hvy, hdx⟩
    exact ⟨hlx.trans hpar, hd.known_of_reach hx hpar⟩
  rw [Option.filter_eq_some_iff, heldParent_eq_some hd h hx hdx, decide_eq_true_eq]
  constructor
  · rintro ⟨⟨hvy, hdig, rfl, hheld⟩, hgc⟩
    obtain ⟨hly, hky⟩ := hvertex hvy hdig
    have hfresh := (held_iff_fresh hd h hno hly hky hgc).mp hheld
    have hex : ∃ y, D.Vertex y ∧ y.digest = k ∧ CausalDag.Fresh p.gcDepth s.frontier y :=
      ⟨y, hvy, hdig, hgc, hfresh⟩
    have hchoose : hex.choose = y :=
      D.digest_inj _ _ hex.choose_spec.1 hvy (hex.choose_spec.2.1.trans hdig.symm)
    rw [dif_pos hex, hchoose]
  · intro hq
    split at hq
    · rename_i hex
      obtain ⟨rfl, rfl⟩ := Prod.mk.inj (Option.some.inj hq)
      obtain ⟨hvy, hdig, hgc, hfresh⟩ := hex.choose_spec
      obtain ⟨hly, hky⟩ := hvertex hvy hdig
      exact ⟨⟨hvy, hdig, rfl, (held_iff_fresh hd h hno hly hky hgc).mpr hfresh⟩, hgc⟩
    · exact absurd hq (by simp)

theorem orderDag_eq (hd : Redelivery D received) (h : Inv p received s)
    (hl : Known p.committee received l) (hlc : s.lastCommittedRound ≤ l.round + p.gcDepth)
    (hno : NoLate D s l) : orderDag p l s = some (D.flatten s.frontier l) := by
  let keep : Certificate PublicKey Digest Signature → Bool :=
    fun x => decide (s.lastCommittedRound ≤ x.round + p.gcDepth)
  have hsome := dfs_children_isSome (D := D) hd h hl fun _ => true
  rw [filter_true_children] at hsome
  obtain ⟨out, hout⟩ := Option.isSome_iff_exists.mp hsome
  obtain ⟨out', hout'⟩ := Option.isSome_iff_exists.mp
    (dfs_children_isSome (D := D) hd h hl fun q => keep q.2)
  have hreach : ∀ x, Known p.committee received x ∧ D.Reach l x → ∀ q ∈ children s x,
      Known p.committee received q.2 ∧ D.Reach l q.2 := by
    rintro x ⟨hx, hlx⟩ q hq
    exact ⟨(known_of_mem_children (D := D) hd h hx hq).1,
      hlx.tail (mem_children hd h hx hq).1⟩
  -- dropping what is garbage collected commutes with the search
  have hfilter : out.filter keep = out' := by
    refine dfs_filter (fun d => ∃ y, D.Vertex y ∧ y.digest = d ∧ keep y = true)
      (fun x => Known p.committee received x ∧ D.Reach l x) ?_ ?_ _
      (dagSize s.dag l.round + 1) [l] [] [] out out' ?_ (fun _ _ => Iff.rfl) hout ?_
    · rintro x hx q hq
      refine ⟨hreach x hx q hq, ?_⟩
      obtain ⟨hpar, hdig, -⟩ := mem_children (D := D) hd h hx.1 hq
      constructor
      · rintro ⟨y, hvy, hyd, hkeep⟩
        rwa [D.digest_inj q.2 y hpar.1 hvy (hdig.symm.trans hyd.symm)]
      · intro hkeep
        exact ⟨q.2, hpar.1, hdig.symm, hkeep⟩
    · rintro x ⟨hx, -⟩ hdrop q hq
      have hround := (known_of_mem_children (D := D) hd h hx hq).2
      simp only [keep, decide_eq_false_iff_not] at hdrop ⊢
      omega
    · simpa using ⟨hl, Relation.ReflTransGen.refl⟩
    · rw [List.filter_cons_of_pos (by simpa [keep] using hlc)]
      exact hout'
  have hfresh : dfs (D.freshParents s.frontier) (dagSize s.dag l.round + 1) [l] [] = some out' := by
    rw [← hout']
    refine (dfs_congr (fun x => Known p.committee received x ∧ D.Reach l x) ?_ ?_ _ _ _ ?_).symm
    · intro x hx q hq
      exact hreach x hx q (List.mem_filter.mp hq).1
    · rintro x ⟨hx, hlx⟩
      exact filter_children_eq hd h hno hlx hx
    · simpa using ⟨hl, Relation.ReflTransGen.refl⟩
  rw [CausalDag.flatten_eq hfresh, orderDag, hout, Option.map_some, ← hfilter]

/-- The leaders of one commit: only the first of them sees what arrived since the last
    update. -/
theorem foldlM_commitLeader_eq (hd : Redelivery D received)
    (ls : List (Certificate PublicKey Digest Signature)) (h : Inv p received s)
    (hl : ∀ l ∈ ls, Known p.committee received l) (hlc : ∀ l ∈ ls, s.lastCommittedRound ≤ l.round)
    (hsorted : ls.Pairwise fun l l' => l.round < l'.round)
    (hno : ∀ l ∈ ls.head?, NoLate D s l)
    (out : List (Certificate PublicKey Digest Signature)) :
    ∃ s', ls.foldlM (commitLeader p) (s, out) = some (s', (D.deliver (s.frontier, out) ls).2) ∧
      s'.frontier = (D.deliver (s.frontier, out) ls).1 := by
  induction ls generalizing s out with
  | nil => exact ⟨s, rfl, rfl⟩
  | cons l ls ih =>
      rw [List.pairwise_cons] at hsorted
      have hll := hl l List.mem_cons_self
      have hlcl := hlc l List.mem_cons_self
      obtain ⟨xs, hxs, hcommit, hinv, hround⟩ := commitLeader_spec (D := D) hd h hll hlcl out
      have hflat : xs = D.flatten s.frontier l := by
        rw [orderDag_eq hd h hll (by omega) (hno l rfl)] at hxs
        exact (Option.some.inj hxs).symm
      have hne : xs ≠ [] := by
        obtain ⟨xs', hxs', hmem, -⟩ := orderDag_spec (D := D) hd h hll (by omega)
        rw [hxs] at hxs'
        rw [Option.some.inj hxs']
        exact List.ne_nil_of_mem hmem
      obtain ⟨s', hrun, hfront⟩ := ih hinv
        (fun l' hl' => hl l' (List.mem_cons_of_mem _ hl'))
        (fun l' hl' => hround ▸ (hsorted.1 l' hl').le) hsorted.2
        (fun _ _ _ _ hfind _ => committedOf_le_of_find_updates hne hfind) (out ++ xs)
      rw [frontier_updates h.isMax] at hrun hfront
      subst hflat
      refine ⟨s', ?_, hfront⟩
      rw [List.foldlM_cons, hcommit]
      exact hrun

/-! ## The log of a validator -/

/-- The condition on a step under which the output is a function of the leaders: the
    oldest leader to commit, if there is one, has nothing late in its history. -/
def OnTime (D : CausalDag Digest Signature p.committee) (s : State PublicKey Digest Signature)
    (c : Certificate PublicKey Digest Signature) : Prop :=
  ∀ leader toCommit, electedLeader p (s.add c) c.round = some (some leader) →
    orderLeaders p leader (s.add c) = some toCommit →
    ∀ oldest ∈ toCommit.getLast?, NoLate D (s.add c) oldest

/-- Every step of a run is on time. -/
def RunOnTime (D : CausalDag Digest Signature p.committee)
    (received : List (Certificate PublicKey Digest Signature)) : Prop :=
  ∀ pre c post, received = pre ++ c :: post → ∀ log, run p pre = some log →
    OnTime D log.state c

/-- Nothing is committed. -/
def Frontier.zero : Frontier PublicKey := ⟨fun _ => 0, 0⟩

/-- The output and the frontier of a validator are those of its leaders. -/
structure Delivered (D : CausalDag Digest Signature p.committee)
    (log : Log PublicKey Digest Signature) : Prop where
  output : log.output = (D.deliver (Frontier.zero, []) log.leaders).2
  frontier : log.state.frontier = (D.deliver (Frontier.zero, []) log.leaders).1

theorem delivered_initial (D : CausalDag Digest Signature p.committee) :
    Delivered D (Log.initial p) := by
  refine ⟨rfl, ?_⟩
  unfold State.frontier
  have h : (State.new (Certificate.genesis p.committee) :
      State PublicKey Digest Signature).committedOf = fun _ => 0 :=
    funext committedOf_genesis
  change Frontier.mk (State.committedOf _) 0 = _
  rw [Log.initial, h]
  rfl

theorem logStep_delivered (htotal : 2 * p.committee.total < 2 ^ 32)
    {log log' : Log PublicKey Digest Signature} (hd : Redelivery D (received ++ [c]))
    (h : Committed D received log) (hdel : Delivered D log) (hon : OnTime D log.state c)
    (hstep : logStep p log c = some log') : Delivered D log' := by
  have hinv := inv_add hd h.inv
  have hc : Known p.committee (received ++ [c]) c := Or.inl (by simp)
  obtain ⟨o, ho, hel⟩ := electedLeader_spec hd hinv hc hd.last_mem htotal
  unfold logStep runStep at hstep
  simp only [ho] at hstep
  cases o with
  | none =>
      obtain rfl := Option.some.inj hstep
      refine ⟨?_, ?_⟩
      · simpa using hdel.output
      · simpa [frontier_add] using hdel.frontier
  | some l =>
      have hl := hel l rfl
      have hwalk := orderLeaders_eq hd hinv hl.known hl.two_le_round
      obtain ⟨hknown, hlc, hsorted⟩ := orderLeaders_spec hd hl.candidate
      simp only [hwalk, Option.bind_some] at hstep
      obtain ⟨s', hrun, hfront⟩ := foldlM_commitLeader_eq hd _ hinv
        (fun q hq => hknown q (List.mem_reverse.mp hq))
        (fun q hq => hlc q (List.mem_reverse.mp hq))
        (List.pairwise_reverse.mpr hsorted)
        (fun q hq => hon l _ ho hwalk q (by rwa [List.head?_reverse] at hq)) []
      rw [hrun] at hstep
      obtain rfl := Option.some.inj hstep
      have hacc : D.deliver (Frontier.zero, []) log.leaders = (log.state.frontier, log.output) := by
        rw [hdel.output, hdel.frontier]
      rw [frontier_add] at hfront
      refine ⟨?_, ?_⟩
      · rw [CausalDag.deliver_append, hacc]
        exact (congrArg Prod.snd (CausalDag.deliver_out _ log.output _)).symm
      · rw [CausalDag.deliver_append, hacc]
        exact hfront.trans (congrArg Prod.fst (CausalDag.deliver_out _ log.output _)).symm

theorem run_delivered (htotal : 2 * p.committee.total < 2 ^ 32) (hd : Redelivery D received)
    (hon : RunOnTime D received) :
    ∃ log, run p received = some log ∧ Committed D received log ∧ Delivered D log := by
  induction received using List.reverseRecOn with
  | nil => exact ⟨_, rfl, committed_initial D, delivered_initial D⟩
  | append_singleton received c ih =>
      have hon' : RunOnTime D received := fun pre x post he =>
        hon pre x (post ++ [c]) (by rw [he]; simp)
      obtain ⟨log, hrun, hlog, hdel⟩ := ih hd.of_append hon'
      obtain ⟨log', hstep, hlog'⟩ := logStep_spec htotal hd hlog
      have hdel' := logStep_delivered htotal hd hlog hdel (hon received c [] rfl log hrun) hstep
      refine ⟨log', ?_, hlog', hdel'⟩
      unfold run at hrun ⊢
      rw [List.foldlM_append, hrun]
      simpa using hstep

/-- `RunOnTime` can be evaluated. -/
theorem runOnTime_of_check (htotal : 2 * p.committee.total < 2 ^ 32) (hd : Redelivery D received)
    (check : ∀ i ∈ List.range received.length, ∀ c ∈ received[i]?,
      ∀ log ∈ run p (received.take i),
        ∀ leader ∈ (electedLeader p (log.state.add c) c.round).join,
          ∀ x ∈ received ++ Certificate.genesis p.committee,
            (log.state.add c).dag.find x.round x.origin = some (x.digest, x) →
            (log.state.add c).lastCommittedRound ≤ x.round + p.gcDepth →
            (log.state.add c).committedOf x.origin ≤ x.round) :
    RunOnTime D received := by
  intro pre c post he log hrun leader _ hel _ _ _ x _ hfind hgc
  have hlen : pre.length < received.length := by simp [he]
  have hc : received[pre.length]? = some c := by simp [he]
  have hpre : received.take pre.length = pre := by simp [he]
  have hd' : Redelivery D (pre ++ [c]) := by
    have hsplit : Redelivery D ((pre ++ [c]) ++ post) := by
      rwa [List.append_assoc, List.singleton_append, ← he]
    exact hsplit.of_append
  obtain ⟨log', hrun', hlog⟩ := run_spec htotal hd'.of_append
  obtain rfl : log = log' := Option.some.inj (hrun.symm.trans hrun')
  have hx := ((inv_add hd' hlog.inv).sound _ _ _ hfind).1
  refine check _ (List.mem_range.mpr hlen) c hc log (by rw [hpre]; exact hrun) leader
    (by rw [hel]; rfl) x ?_ hfind hgc
  rcases hx with hx | hx
  · exact List.mem_append_left _ (he ▸ by simp at hx ⊢; tauto)
  · exact List.mem_append_right _ hx

/-- Two validators whose steps are all on time output comparable sequences, whatever the
    order in which each of them receives the DAG, and at every moment. -/
theorem outputs_agree_of_onTime (p : Params PublicKey)
    (htotal : 2 * p.committee.total < 2 ^ 32) (D : CausalDag Digest Signature p.committee)
    (received received' : List (Certificate PublicKey Digest Signature))
    (hd : Delivery D received) (hd' : Delivery D received')
    (hon : RunOnTime D received) (hon' : RunOnTime D received') :
    ∃ log log', run p received = some log ∧ run p received' = some log' ∧
      (log.output <+: log'.output ∨ log'.output <+: log.output) := by
  obtain ⟨log, hrun, hlog, hdel⟩ := run_delivered htotal hd.redelivery hon
  obtain ⟨log', hrun', hlog', hdel'⟩ := run_delivered htotal hd'.redelivery hon'
  refine ⟨log, log', hrun, hrun', ?_⟩
  rw [hdel.output, hdel'.output]
  exact (leaders_comparable hlog hlog').imp CausalDag.deliver_prefix CausalDag.deliver_prefix

theorem runOnTime_orderEarly : RunOnTime Sample.dag Sample.orderEarly :=
  runOnTime_of_check (by decide) Sample.delivery_orderEarly.redelivery (by decide +kernel)

theorem runOnTime_orderSwapped : RunOnTime Sample.dag Sample.orderSwapped :=
  runOnTime_of_check (by decide) Sample.delivery_orderSwapped.redelivery (by decide +kernel)

theorem outputs_agree_of_onTime_sample :
    ∃ log log', run Sample.params Sample.orderEarly = some log ∧
      run Sample.params Sample.orderSwapped = some log' ∧
      (log.output <+: log'.output ∨ log'.output <+: log.output) :=
  outputs_agree_of_onTime Sample.params (by decide) Sample.dag Sample.orderEarly
    Sample.orderSwapped Sample.delivery_orderEarly Sample.delivery_orderSwapped
    runOnTime_orderEarly runOnTime_orderSwapped

/-! ## A late certificate -/

theorem output_orderEarly : (run Sample.params Sample.orderEarly).map (fun log => log.output.map
    fun x => (x.round, x.origin)) =
    some [(1, 0), (2, 2), (2, 1), (2, 0), (3, 1), (3, 0), (4, 1)] := by
  decide +kernel

theorem output_orderLate : (run Sample.params Sample.orderLate).map (fun log => log.output.map
    fun x => (x.round, x.origin)) =
    some [(1, 0), (2, 2), (1, 2), (2, 1), (2, 0), (3, 1), (3, 0), (4, 1)] := by
  decide +kernel

/-- Without the condition the outputs need not be comparable. The validator that receives
    the certificate of authority 2 in round 1 late outputs it, behind the certificate that
    the same authority issued in round 2; the one that receives it early prunes it. -/
theorem outputs_disagree :
    ¬ ∀ (p : Params ℕ) (D : CausalDag ℕ Unit p.committee)
        (received received' : List (Certificate ℕ ℕ Unit)),
        2 * p.committee.total < 2 ^ 32 → Delivery D received → Delivery D received' →
        ∀ log log', run p received = some log → run p received' = some log' →
          log.output <+: log'.output ∨ log'.output <+: log.output := by
  intro h
  obtain ⟨log, hrun, hout⟩ := Option.map_eq_some_iff.mp output_orderEarly
  obtain ⟨log', hrun', hout'⟩ := Option.map_eq_some_iff.mp output_orderLate
  have key := h Sample.params Sample.dag _ _ (by decide) Sample.delivery_orderEarly
    Sample.delivery_orderLate log log' hrun hrun'
  let name (x : Certificate ℕ ℕ Unit) := (x.round, x.origin)
  have hmap : log.output.map name <+: log'.output.map name ∨
      log'.output.map name <+: log.output.map name :=
    key.imp (fun hpre => hpre.map name) (fun hpre => hpre.map name)
  rw [hout, hout'] at hmap
  exact absurd hmap (by decide)

end DagBft.Consensus
