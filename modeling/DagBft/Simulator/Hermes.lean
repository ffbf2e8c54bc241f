/-
  The Hermes-inspired scheduler of the simulator (`executor-sim/paper/paper.py`), in exact
  arithmetic, and what its evaluator checks (`paper/evaluator_paper.py`).

  The scheduler orders and routes a batch greedily (`route`), then moves transactions from
  overloaded executors to underloaded ones: as long as few remote reads are added, in a loop
  without a bound of its own (`reroute`), and at last in any case (`fallback`).
  `scheduler_output`: it terminates with a schedule that the evaluator accepts. Every pass of
  the loop brings the excess of the loads down or is one of eight without a move.
-/
import DagBft.Simulator.Flamingo
import DagBft.Lib.Bins
import DagBft.Lib.HashMap
import Mathlib.Data.Finset.Sort
import Mathlib.Data.Prod.Lex
import Mathlib.Algebra.Order.Floor.Ring

namespace DagBft.Simulator.Hermes

open Fusion (Partition)

def maxLookahead : ℕ := 128

def maxDelta : ℕ := 8

/-- The orders in which Python iterates over a set. The sets change only when the schedule
    does. -/
structure SetOrder where
  toList : List ℕ → Finset ℕ → List ℕ
  perm : ∀ schedule s, (toList schedule s : Multiset ℕ) = s.val

instance : Inhabited SetOrder :=
  ⟨⟨fun _ s => s.sort (· ≤ ·), fun _ s => Finset.sort_eq s (· ≤ ·)⟩⟩

/-- Hermes Step 1 cost: remote reads over `read_set` only. -/
def remoteReadCost (tx : Transaction) (executor : ℕ) (partition : Partition) : ℕ :=
  tx.readSet.countP fun acc => partition acc ≠ some executor

/-- Hermes simplified update: only `write_set` changes ownership. -/
def applyWriteFusion (tx : Transaction) (executor : ℕ) (partition : Partition) : Partition :=
  fun acc => if acc ∈ tx.writeSet then some executor else partition acc

/-! ## Step 1 -/

/-- The best transaction and executor so far. -/
structure Pick where
  cost : ℕ
  partialLoad : ℕ
  idx : ℕ
  tx : Transaction
  executor : ℕ

def consider (partition : Partition) (partialCounts : ℕ → ℕ) (idx : ℕ) (tx : Transaction)
    (best : Option Pick) (executor : ℕ) : Option Pick :=
  let cost := remoteReadCost tx executor partition
  let partialLoad := partialCounts executor
  match best with
  | none => some ⟨cost, partialLoad, idx, tx, executor⟩
  | some b =>
      -- prefer lower cost, then lower partial load, then lower executor id
      if cost < b.cost ∨ cost = b.cost ∧ partialLoad < b.partialLoad ∨
          cost = b.cost ∧ partialLoad = b.partialLoad ∧ executor < b.executor then
        some ⟨cost, partialLoad, idx, tx, executor⟩
      else some b

/-- The loops over the remaining transactions and the executors. -/
def pick (partition : Partition) (partialCounts : ℕ → ℕ) (numExecutors : ℕ)
    (remaining : List Transaction) : Option Pick :=
  remaining.zipIdx.foldl (fun best x =>
    (List.range numExecutors).foldl (consider partition partialCounts x.2 x.1) best) none

/-- Reorder and route greedily, minimizing remote reads. -/
def route (numExecutors : ℕ) : ℕ → Partition → List Transaction → List Transaction → List ℕ →
    Except PyError (Partition × List Transaction × List ℕ)
  | 0, partition, _, ordered, schedule => .ok (partition, ordered, schedule)
  | k + 1, partition, remaining, ordered, schedule =>
      match pick partition (fun e => schedule.count e) numExecutors remaining with
      | none => .error .attribute
      | some p =>
          route numExecutors k (applyWriteFusion p.tx p.executor partition)
            (remaining.eraseIdx p.idx) (ordered ++ [p.tx]) (schedule ++ [p.executor])

/-! ## Steps 2 and 3 -/

/-- `math.ceil((m / num_executors) * (1 + epsilon))`. -/
def theta (m numExecutors : ℕ) (epsilon : ℚ) : ℕ :=
  ⌈(m : ℚ) / numExecutors * (1 + epsilon)⌉.toNat

/-- What the rebalancing works on. -/
structure Balance where
  schedule : List ℕ
  counts : ℕ → ℕ
  overloaded : Finset ℕ
  underloaded : Finset ℕ
  partitionFinal : Partition

def computeLoadSets (schedule : List ℕ) (numExecutors theta : ℕ) (partitionFinal : Partition) :
    Balance where
  schedule := schedule
  counts e := schedule.count e
  overloaded := (Finset.range numExecutors).filter fun e => theta < schedule.count e
  underloaded := (Finset.range numExecutors).filter fun e => schedule.count e < theta
  partitionFinal := partitionFinal

/-- The edges that a move of the transaction to the executor adds: its remote reads, and later
    reads of what it writes by transactions that are routed elsewhere. -/
def extraEdges (tx : Transaction) (partitionFinal : Partition)
    (limitedFuture : List (Transaction × ℕ)) (executor : ℕ) : ℕ :=
  remoteReadCost tx executor partitionFinal +
    limitedFuture.countP fun x => x.2 ≠ executor ∧ ∃ acc ∈ x.1.readSet, acc ∈ tx.writeSet

/-- The first of the underloaded executors with the fewest extra edges, if these are no more than
    `delta`. -/
def findNewRoute (tx : Transaction) (underloaded : List ℕ) (partitionFinal : Partition)
    (delta : ℕ) (futureTxs : List Transaction) (futureRoutes : List ℕ) : Option ℕ :=
  let limitedFuture := (futureTxs.take maxLookahead).zip (futureRoutes.take maxLookahead)
  let scan (best : Option (ℕ × ℕ)) (executor : ℕ) : Option (ℕ × ℕ) :=
    let extra := extraEdges tx partitionFinal limitedFuture executor
    if extra ≤ delta ∧ ∀ b ∈ best, extra < b.1 then some (extra, executor) else best
  (underloaded.foldl scan none).map Prod.snd

namespace Balance

variable (s : Balance) (theta : ℕ)

/-- Moves a transaction from one executor to another one. -/
def move (tx : Transaction) (i src dst : ℕ) : Balance :=
  let counts e :=
    if e = src then s.counts e - 1 else if e = dst then s.counts e + 1 else s.counts e
  let overloaded := if counts src ≤ theta then s.overloaded.erase src else s.overloaded
  let underloaded := if counts src < theta then insert src s.underloaded else s.underloaded
  { schedule := s.schedule.set i dst
    counts := counts
    overloaded := if theta < counts dst then insert dst overloaded else overloaded
    underloaded := if theta ≤ counts dst then underloaded.erase dst else underloaded
    -- only write ownership that still points to `src`
    partitionFinal := fun acc =>
      if acc ∈ tx.writeSet ∧ s.partitionFinal acc = some src then some dst
      else s.partitionFinal acc }

/-- One position of a pass of Step 3: the state afterwards, if the transaction moves. -/
def rerouteAt (order : SetOrder) (ordered : List Transaction) (delta i : ℕ) : Option Balance :=
  match s.schedule[i]?, ordered[i]? with
  | some src, some tx =>
      if src ∈ s.overloaded then
        match findNewRoute tx (order.toList s.schedule s.underloaded) s.partitionFinal delta
            (ordered.drop (i + 1)) (s.schedule.drop (i + 1)) with
        | none => none
        | some dst => if dst = src then none else some (s.move theta tx i src dst)
      else none
  | _, _ => none

end Balance

/-- A pass over some positions, and whether any transaction has moved. -/
def pass (order : SetOrder) (ordered : List Transaction) (theta delta : ℕ) :
    List ℕ → Balance → Bool → Balance × Bool
  | [], s, movedAny => (s, movedAny)
  | i :: positions, s, movedAny =>
      match s.rerouteAt theta order ordered delta i with
      | none => pass order ordered theta delta positions s movedAny
      | some s' =>
          if s'.overloaded = ∅ then (s', true)
          else pass order ordered theta delta positions s' true

/-- The positions of a list, the last one first. -/
def backward (l : List ℕ) : List ℕ := (List.range l.length).reverse

/-- Backward rerouting with bounded `delta`. -/
def reroute (order : SetOrder) (ordered : List Transaction) (theta : ℕ) :
    ℕ → ℕ → Balance → Except PyError Balance
  | 0, _, _ => .error .fuel
  | fuel + 1, delta, s =>
      if s.overloaded ≠ ∅ ∧ delta ≤ maxDelta then
        let (s', movedAny) := pass order ordered theta delta (backward s.schedule) s false
        reroute order ordered theta fuel (if movedAny then delta else delta + 1) s'
      else .ok s

/-! ## The fallback -/

/-- `(counts[eid], remote_read_cost(..), eid)`. -/
def fallbackKey (tx : Transaction) (s : Balance) (executor : ℕ) : ℕ ×ₗ ℕ ×ₗ ℕ :=
  toLex (s.counts executor, toLex (remoteReadCost tx executor s.partitionFinal, executor))

/-- A move of the fallback. The underloaded executors are not looked at any more. -/
def Balance.fallbackMove (s : Balance) (theta i src dst : ℕ) : Balance :=
  let counts e :=
    if e = src then s.counts e - 1 else if e = dst then s.counts e + 1 else s.counts e
  { s with
    schedule := s.schedule.set i dst
    counts := counts
    overloaded := if counts src ≤ theta then s.overloaded.erase src else s.overloaded }

/-- Deterministic fallback rebalance over some positions. -/
def fallback (numExecutors : ℕ) (ordered : List Transaction) (theta : ℕ) :
    List ℕ → Balance → Balance
  | [], s => s
  | i :: positions, s =>
      match s.schedule[i]?, ordered[i]? with
      | some src, some tx =>
          if s.counts src ≤ theta then fallback numExecutors ordered theta positions s
          else
            let candidates := (List.range numExecutors).filter fun e => s.counts e < theta
            match candidates.argmin (fallbackKey tx s) with
            | none => s
            | some dst =>
                let s' := s.fallbackMove theta i src dst
                if s'.overloaded = ∅ then s'
                else fallback numExecutors ordered theta positions s'
      | _, _ => fallback numExecutors ordered theta positions s

/-! ## The scheduler -/

/-- The executors for the reordered batch, and the reordered batch. -/
def scheduler (order : SetOrder) (fuel : ℕ) (partition : Partition) (batch : List Transaction)
    (numExecutors : ℕ) (epsilon : ℚ) : Except PyError (List ℕ × List Transaction) :=
  if batch = [] then .ok ([], [])
  else do
    let (partitionFinal, ordered, schedule) ←
      route numExecutors batch.length partition batch [] []
    let theta := theta batch.length numExecutors epsilon
    let s ← reroute order ordered theta fuel 1
      (computeLoadSets schedule numExecutors theta partitionFinal)
    let s :=
      if s.overloaded = ∅ then s else fallback numExecutors ordered theta (backward s.schedule) s
    .ok (s.schedule, ordered)

/-! ## The evaluator -/

/-- The remote reads of a schedule. -/
def countRemoteReads (numExecutors : ℕ) : Partition → List (Transaction × ℕ) → ℕ →
    Except PyError ℕ
  | _, [], totalRemoteReads => .ok totalRemoteReads
  | partition, (tx, executorId) :: rest, totalRemoteReads =>
      if executorId < numExecutors then
        if ∀ acc ∈ tx.readSet, (partition acc).isSome then
          countRemoteReads numExecutors (applyWriteFusion tx executorId partition) rest
            (totalRemoteReads + remoteReadCost tx executorId partition)
        else .error .key
      else .error .assertion

/-- The remote reads, or `none` for an infinite cost. -/
def evaluateBatchSchedule (partition : Partition) (numExecutors : ℕ)
    (reorderedBatch : List Transaction) (schedule : List ℕ) (originalBatch : List Transaction)
    (epsilon : ℚ) : Except PyError (Option ℕ) :=
  if reorderedBatch.length ≠ schedule.length then .ok none
  else if reorderedBatch.length ≠ originalBatch.length then .ok none
  else if numExecutors = 0 then .error .zeroDivision
  else do
    let maxAllowed := ⌈(reorderedBatch.length : ℚ) / numExecutors * (1 + epsilon)⌉.toNat
    let totalRemoteReads ←
      countRemoteReads numExecutors partition (reorderedBatch.zip schedule) 0
    let maxLoad := ((schedule.map fun e => schedule.count e).max?).getD 0
    .ok (if maxAllowed < maxLoad then none else some totalRemoteReads)

/-! ## The order and the routes -/

section Route

variable {partition : Partition} {partialCounts : ℕ → ℕ} {n : ℕ} {remaining : List Transaction}

theorem consider_cases (idx : ℕ) (tx : Transaction) (best : Option Pick) (executor : ℕ) :
    (∃ cost load, consider partition partialCounts idx tx best executor =
      some ⟨cost, load, idx, tx, executor⟩) ∨
    best.isSome ∧ consider partition partialCounts idx tx best executor = best := by
  unfold consider
  cases best with
  | none => exact Or.inl ⟨_, _, rfl⟩
  | some b =>
      dsimp only
      split
      · exact Or.inl ⟨_, _, rfl⟩
      · exact Or.inr ⟨rfl, rfl⟩

/-- A pick is one of the remaining transactions, for one of the executors. -/
def Pick.Valid (n : ℕ) (remaining : List Transaction) (p : Pick) : Prop :=
  remaining[p.idx]? = some p.tx ∧ p.executor < n

theorem pick_valid {p : Pick} (h : pick partition partialCounts n remaining = some p) :
    p.Valid n remaining := by
  refine List.foldlRecOn (motive := fun best : Option Pick => ∀ p ∈ best, p.Valid n remaining)
    remaining.zipIdx _ (fun p hp => by cases hp) (fun best hbest x hx => ?_) p h
  refine List.foldlRecOn (motive := fun best : Option Pick => ∀ p ∈ best, p.Valid n remaining)
    (List.range n) _ hbest fun best hbest executor hexecutor => ?_
  rcases consider_cases x.2 x.1 best executor with ⟨cost, load, heq⟩ | ⟨-, heq⟩
  · rw [heq]
    rintro p ⟨⟩
    exact ⟨List.mem_zipIdx_iff_getElem?.mp hx, List.mem_range.mp hexecutor⟩
  · rwa [heq]

theorem isSome_foldl_consider {idx : ℕ} {tx : Transaction} {best : Option Pick}
    {executors : List ℕ} (h : best.isSome ∨ executors ≠ []) :
    (executors.foldl (consider partition partialCounts idx tx) best).isSome := by
  induction executors generalizing best with
  | nil => exact h.resolve_right fun hne => hne rfl
  | cons executor executors ih =>
      refine ih (Or.inl ?_)
      rcases consider_cases idx tx best executor with ⟨cost, load, heq⟩ | ⟨hsome, heq⟩
      · rw [heq]
        rfl
      · rwa [heq]

theorem exists_pick (partition : Partition) (partialCounts : ℕ → ℕ) (hn : 0 < n)
    (hne : remaining ≠ []) :
    ∃ p, pick partition partialCounts n remaining = some p := by
  refine Option.isSome_iff_exists.mp ?_
  have hrange : List.range n ≠ [] := by
    rw [Ne, List.range_eq_nil]
    omega
  obtain ⟨tx, remaining, rfl⟩ := List.exists_cons_of_ne_nil hne
  unfold pick
  rw [List.zipIdx_cons, List.foldl_cons]
  refine List.foldlRecOn (motive := fun best : Option Pick => best.isSome = true) _ _
    (isSome_foldl_consider (Or.inr hrange)) fun best hbest x _ => ?_
  exact isSome_foldl_consider (Or.inl hbest)

/-- Step 1 loses no transaction and makes up none. -/
theorem route_ok (partition : Partition) (ordered : List Transaction) (schedule : List ℕ)
    (hn : 0 < n) {k : ℕ} (hk : remaining.length = k) (hlen : schedule.length = ordered.length)
    (hrange : ∀ e ∈ schedule, e < n) :
    ∃ partition' ordered' schedule',
      route n k partition remaining ordered schedule = .ok (partition', ordered', schedule') ∧
      ordered'.Perm (ordered ++ remaining) ∧ schedule'.length = ordered'.length ∧
      ∀ e ∈ schedule', e < n := by
  induction k generalizing partition remaining ordered schedule with
  | zero =>
      obtain rfl := List.length_eq_zero_iff.mp hk
      exact ⟨partition, ordered, schedule, rfl, by rw [List.append_nil], hlen, hrange⟩
  | succ k ih =>
      have hne : remaining ≠ [] := by
        rintro rfl
        cases hk
      obtain ⟨p, hp⟩ := exists_pick partition (fun e => schedule.count e) hn hne
      obtain ⟨hget, hexecutor⟩ := pick_valid hp
      obtain ⟨hlt, hget⟩ := List.getElem?_eq_some_iff.mp hget
      have hperm : (p.tx :: remaining.eraseIdx p.idx).Perm remaining := by
        rw [← hget]
        exact List.getElem_cons_eraseIdx_perm hlt
      obtain ⟨partition', ordered', schedule', hok, hperm', hlen', hrange'⟩ :=
        ih (applyWriteFusion p.tx p.executor partition) (ordered ++ [p.tx])
          (schedule ++ [p.executor])
          (show (remaining.eraseIdx p.idx).length = k by
            rw [List.length_eraseIdx_of_lt hlt]
            omega)
          (by rw [List.length_append, List.length_append, hlen]; rfl) (fun e he => by
            rcases List.mem_append.mp he with he | he
            · exact hrange e he
            · rw [List.mem_singleton.mp he]
              exact hexecutor)
      refine ⟨partition', ordered', schedule', ?_, ?_, hlen', hrange'⟩
      · unfold route
        rw [hp]
        exact hok
      · refine hperm'.trans ?_
        rw [List.append_assoc, List.singleton_append]
        exact List.Perm.append_left ordered hperm

end Route

/-! ## Moves -/

section Moves

variable {n cap m : ℕ} {s s' : Balance} {order : SetOrder} {ordered : List Transaction}
  {tx : Transaction} {i delta src dst : ℕ}

theorem findNewRoute_mem {underloaded : List ℕ} {partitionFinal : Partition}
    {futureTxs : List Transaction} {futureRoutes : List ℕ}
    (h : findNewRoute tx underloaded partitionFinal delta futureTxs futureRoutes = some dst) :
    dst ∈ underloaded := by
  unfold findNewRoute at h
  dsimp only at h
  obtain ⟨x, hx, rfl⟩ := Option.map_eq_some_iff.mp h
  refine List.foldlRecOn (motive := fun best : Option (ℕ × ℕ) => ∀ x ∈ best, x.2 ∈ underloaded)
    underloaded _ (fun x hx => by cases hx) (fun best hbest executor hexecutor => ?_) x hx
  split
  · rintro x ⟨⟩
    exact hexecutor
  · exact hbest

/-- The counts are those of the schedule, and the overloaded executors those above the cap. -/
structure Balance.Sound (s : Balance) (n cap m : ℕ) : Prop where
  length : s.schedule.length = m
  range : ∀ e ∈ s.schedule, e < n
  counts : ∀ e, s.counts e = s.schedule.count e
  overloaded : ∀ e, e ∈ s.overloaded ↔ cap < s.schedule.count e

/-- The underloaded executors are known, too. -/
structure Balance.Rebalancing (s : Balance) (n cap m : ℕ) : Prop extends s.Sound n cap m where
  underloaded : ∀ e, e ∈ s.underloaded ↔ e < n ∧ s.schedule.count e < cap

theorem rebalancing_computeLoadSets {schedule : List ℕ} (partitionFinal : Partition)
    (hlen : schedule.length = m) (hrange : ∀ e ∈ schedule, e < n) :
    (computeLoadSets schedule n cap partitionFinal).Rebalancing n cap m where
  length := hlen
  range := hrange
  counts _ := rfl
  overloaded e := by
    unfold computeLoadSets
    rw [Finset.mem_filter, Finset.mem_range, and_iff_right_iff_imp]
    exact fun h => hrange e (List.count_pos_iff.mp (by omega))
  underloaded e := by
    unfold computeLoadSets
    rw [Finset.mem_filter, Finset.mem_range]

theorem range_set (h : s.Sound n cap m) (hdst : dst < n) (e : ℕ) (he : e ∈ s.schedule.set i dst) :
    e < n := by
  rcases List.mem_or_eq_of_mem_set he with he | rfl
  · exact h.range e he
  · exact hdst

theorem mem_ite_insert {p : Prop} [Decidable p] {e a : ℕ} {t : Finset ℕ} :
    (e ∈ if p then insert a t else t) ↔ p ∧ e = a ∨ e ∈ t := by
  by_cases hp : p
  · simp [hp]
  · simp [hp]

theorem mem_ite_erase {p : Prop} [Decidable p] {e a : ℕ} {t : Finset ℕ} :
    (e ∈ if p then t.erase a else t) ↔ ¬ (p ∧ e = a) ∧ e ∈ t := by
  by_cases hp : p
  · simp [hp]
  · simp [hp]

/-- A move from an executor above the cap to one below. -/
theorem Balance.Rebalancing.move (h : s.Rebalancing n cap m) (hi : s.schedule[i]? = some src)
    (hsrc : cap < s.schedule.count src) (hn : dst < n) (hdst : s.schedule.count dst < cap) :
    (s.move cap tx i src dst).Rebalancing n cap m := by
  have hne : dst ≠ src := by
    rintro rfl
    omega
  have hcount : ∀ e, (s.schedule.set i dst).count e = _ := count_move hi hne
  refine ⟨⟨?_, range_set h.toSound hn, fun e => ?_, fun e => ?_⟩, fun e => ?_⟩
  · exact (List.length_set).trans h.length
  · simp only [Balance.move, hcount, h.counts]
  · simp only [Balance.move, mem_ite_insert, mem_ite_erase, if_true, if_neg hne, hcount, h.counts,
      h.overloaded]
    split
    · rename_i hes
      subst hes
      omega
    · split
      · rename_i hed
        subst hed
        omega
      · omega
  · simp only [Balance.move, mem_ite_insert, mem_ite_erase, if_true, if_neg hne, hcount, h.counts,
      h.underloaded]
    split
    · rename_i hes
      subst hes
      omega
    · split
      · rename_i hed
        subst hed
        omega
      · omega

/-- What a position of a pass does: a move from an overloaded executor to an underloaded one. -/
theorem Balance.Rebalancing.rerouteAt (h : s.Rebalancing n cap m)
    (hs : s.rerouteAt cap order ordered delta i = some s') :
    s'.Rebalancing n cap m ∧ excess n cap s'.schedule + 1 = excess n cap s.schedule := by
  unfold Balance.rerouteAt at hs
  split at hs
  · rename_i src tx hi htx
    split at hs
    · rename_i hover
      split at hs
      · cases hs
      · rename_i dst hroute
        split at hs
        · cases hs
        · obtain rfl := Option.some.inj hs
          have hsrc := (h.overloaded src).mp hover
          have hmem : dst ∈ s.underloaded := by
            have hlist := findNewRoute_mem hroute
            rw [← Multiset.mem_coe, order.perm] at hlist
            exact hlist
          obtain ⟨hn, hdst⟩ := (h.underloaded dst).mp hmem
          exact ⟨h.move hi hsrc hn hdst,
            excess_move hi (h.range src (List.mem_of_getElem? hi)) hsrc hdst⟩
    · cases hs
  · cases hs

/-- A pass does not add to the excess, and takes from it if any transaction moves. -/
theorem Balance.Rebalancing.pass (h : s.Rebalancing n cap m) (order : SetOrder)
    (ordered : List Transaction) (delta : ℕ) (positions : List ℕ) (movedAny : Bool) :
    (pass order ordered cap delta positions s movedAny).1.Rebalancing n cap m ∧
      excess n cap (pass order ordered cap delta positions s movedAny).1.schedule ≤
        excess n cap s.schedule ∧
      ((pass order ordered cap delta positions s movedAny).2 = true → movedAny = true ∨
        excess n cap (pass order ordered cap delta positions s movedAny).1.schedule <
          excess n cap s.schedule) := by
  induction positions generalizing s movedAny with
  | nil => exact ⟨h, le_rfl, fun hmoved => Or.inl hmoved⟩
  | cons i positions ih =>
      unfold Hermes.pass
      cases hs : s.rerouteAt cap order ordered delta i with
      | none => exact ih h movedAny
      | some s' =>
          obtain ⟨h', hexcess⟩ := h.rerouteAt hs
          dsimp only
          split
          · dsimp only
            exact ⟨h', by omega, fun _ => Or.inr (by omega)⟩
          · obtain ⟨h'', hle, -⟩ := ih h' true
            exact ⟨h'', by omega, fun _ => Or.inr (by omega)⟩

/-- The loop ends: each pass takes from the excess or raises `delta`. -/
theorem Balance.Rebalancing.reroute {k : ℕ} (h : s.Rebalancing n cap m) (order : SetOrder)
    (ordered : List Transaction) (delta : ℕ)
    (hk : excess n cap s.schedule + (maxDelta + 1 - delta) ≤ k) :
    ∃ s', s'.Rebalancing n cap m ∧
      ∀ fuel, k < fuel → reroute order ordered cap fuel delta s = .ok s' := by
  induction k generalizing s delta with
  | zero =>
      refine ⟨s, h, fun fuel hfuel => ?_⟩
      obtain ⟨fuel, rfl⟩ := Nat.exists_eq_add_of_lt hfuel
      rw [Nat.zero_add]
      unfold Hermes.reroute
      exact if_neg fun hloop => by omega
  | succ k ih =>
      by_cases hloop : s.overloaded ≠ ∅ ∧ delta ≤ maxDelta
      · obtain ⟨h', hle, hmoved⟩ := h.pass order ordered delta (backward s.schedule) false
        have hmeasure : excess n cap
            (Hermes.pass order ordered cap delta (backward s.schedule) s false).1.schedule +
            (maxDelta + 1 - if (Hermes.pass order ordered cap delta (backward s.schedule) s
              false).2 then delta else delta + 1) ≤ k := by
          split
          · rename_i hany
            have := (hmoved hany).resolve_left (by simp)
            omega
          · omega
        obtain ⟨s', hs', hok⟩ := ih h' _ hmeasure
        refine ⟨s', hs', fun fuel hfuel => ?_⟩
        cases fuel with
        | zero => omega
        | succ fuel =>
            unfold Hermes.reroute
            rw [if_pos hloop]
            exact hok fuel (by omega)
      · refine ⟨s, h, fun fuel hfuel => ?_⟩
        cases fuel with
        | zero => omega
        | succ fuel =>
            unfold Hermes.reroute
            exact if_neg hloop

theorem Balance.Sound.fallbackMove (h : s.Sound n cap m) (hi : s.schedule[i]? = some src)
    (hsrc : cap < s.schedule.count src) (hn : dst < n) (hdst : s.schedule.count dst < cap) :
    (s.fallbackMove cap i src dst).Sound n cap m := by
  have hne : dst ≠ src := by
    rintro rfl
    omega
  have hcount : ∀ e, (s.schedule.set i dst).count e = _ := count_move hi hne
  refine ⟨?_, range_set h hn, fun e => ?_, fun e => ?_⟩
  · exact (List.length_set).trans h.length
  · simp only [Balance.fallbackMove, hcount, h.counts]
  · simp only [Balance.fallbackMove, mem_ite_erase, if_true, hcount, h.counts, h.overloaded]
    split
    · rename_i hes
      subst hes
      omega
    · split
      · rename_i hed
        subst hed
        omega
      · omega

/-- The executors of all positions but some are not above the cap. -/
def Settled (s : Balance) (cap : ℕ) (positions : List ℕ) : Prop :=
  ∀ i e, s.schedule[i]? = some e → i ∉ positions → s.schedule.count e ≤ cap

theorem Settled.of_cons {positions : List ℕ} (h : Settled s cap (i :: positions))
    (hi : ∀ e, s.schedule[i]? = some e → s.schedule.count e ≤ cap) : Settled s cap positions := by
  intro j e hj hnot
  by_cases hji : j = i
  · subst hji
    exact hi e hj
  · exact h j e hj (List.not_mem_cons_of_ne_of_not_mem hji hnot)

/-- No move takes an executor above the cap. -/
theorem Settled.fallbackMove {positions : List ℕ} (h : Settled s cap (i :: positions))
    (hi : s.schedule[i]? = some src) (hsrc : cap < s.schedule.count src)
    (hdst : s.schedule.count dst < cap) :
    Settled (s.fallbackMove cap i src dst) cap positions := by
  have hne : dst ≠ src := by
    rintro rfl
    omega
  intro j e hj hnot
  have hj : (s.schedule.set i dst)[j]? = some e := hj
  show (s.schedule.set i dst).count e ≤ cap
  rw [count_move hi hne]
  by_cases hji : j = i
  · subst hji
    rw [List.getElem?_set_self (List.getElem?_eq_some_iff.mp hi).1] at hj
    obtain rfl := Option.some.inj hj
    rw [if_neg hne, if_pos rfl]
    omega
  · rw [List.getElem?_set_ne (Ne.symm hji)] at hj
    have hle := h j e hj (List.not_mem_cons_of_ne_of_not_mem hji hnot)
    split
    · omega
    · split
      · rename_i hed
        subst hed
        omega
      · exact hle

theorem Balance.Sound.le_of_overloaded (h : s.Sound n cap m) (hempty : s.overloaded = ∅) (e : ℕ) :
    s.schedule.count e ≤ cap := by
  by_contra hover
  have hmem := (h.overloaded e).mpr (not_le.mp hover)
  rw [hempty] at hmem
  exact Finset.notMem_empty e hmem

/-- An executor above the cap leaves another one below it. -/
theorem Balance.Sound.exists_candidate (h : s.Sound n cap m) (tx : Transaction)
    (hfit : m ≤ n * cap) (hsrc : cap < s.schedule.count src) :
    ∃ dst, ((List.range n).filter fun e => s.counts e < cap).argmin (fallbackKey tx s) =
      some dst := by
  obtain ⟨e, hn, hlt⟩ := exists_count_lt h.range (h.length.trans_le hfit) hsrc
  have hmem : e ∈ (List.range n).filter fun e => s.counts e < cap := by
    rw [List.mem_filter, List.mem_range, decide_eq_true_eq, h.counts]
    exact ⟨hn, hlt⟩
  refine Option.ne_none_iff_exists'.mp fun hnone => ?_
  rw [List.argmin_eq_none.mp hnone] at hmem
  cases hmem

/-- After the fallback no executor is above the cap: it has come across all positions. -/
theorem fallback_le (positions : List ℕ) (hfit : m ≤ n * cap) (hlen : ordered.length = m)
    (h : s.Sound n cap m) (hsettled : Settled s cap positions) :
    (fallback n ordered cap positions s).Sound n cap m ∧
      ∀ e, (fallback n ordered cap positions s).schedule.count e ≤ cap := by
  induction positions generalizing s with
  | nil =>
      refine ⟨h, fun e => ?_⟩
      by_contra hover
      have hmem : e ∈ s.schedule := List.count_pos_iff.mp (Nat.zero_lt_of_lt (not_le.mp hover))
      obtain ⟨i, hi⟩ := List.mem_iff_getElem?.mp hmem
      exact hover (hsettled i e hi (by simp))
  | cons i positions ih =>
      unfold fallback
      cases hi : s.schedule[i]? with
      | none => exact ih h (hsettled.of_cons fun e he => by rw [hi] at he; cases he)
      | some src =>
          have hlt : i < ordered.length := by
            rw [hlen, ← h.length]
            exact (List.getElem?_eq_some_iff.mp hi).1
          rw [List.getElem?_eq_getElem hlt]
          dsimp only
          by_cases hle : s.counts src ≤ cap
          · rw [if_pos hle]
            refine ih h (hsettled.of_cons fun e he => ?_)
            rw [hi] at he
            rwa [← Option.some.inj he, ← h.counts]
          · rw [if_neg hle]
            rw [h.counts, not_le] at hle
            obtain ⟨dst, hdst⟩ := h.exists_candidate ordered[i] hfit hle
            rw [hdst]
            dsimp only
            have hmem := List.argmin_mem hdst
            rw [List.mem_filter, List.mem_range, decide_eq_true_eq, h.counts] at hmem
            have h' := h.fallbackMove hi hle hmem.1 hmem.2
            split
            · rename_i hempty
              exact ⟨h', h'.le_of_overloaded hempty⟩
            · exact ih h' (hsettled.fallbackMove hi hle hmem.2)

end Moves

/-! ## The result -/

section Result

variable {n m : ℕ} {epsilon : ℚ} {partition : Partition}

/-- The batch fits under the cap. -/
theorem le_mul_theta (hn : 1 ≤ n) (hepsilon : 0 ≤ epsilon) : m ≤ n * theta m n epsilon := by
  have hpos : (0 : ℚ) < n := by exact_mod_cast hn
  have hm : (0 : ℚ) ≤ m := Nat.cast_nonneg m
  have hshare : (m : ℚ) / n ≤ m / n * (1 + epsilon) :=
    le_mul_of_one_le_right (div_nonneg hm hpos.le) (by linarith)
  have hceil : (m : ℚ) / n * (1 + epsilon) ≤ theta m n epsilon :=
    (Int.le_ceil _).trans (by exact_mod_cast Int.self_le_toNat _)
  have hle : (m : ℚ) ≤ n * theta m n epsilon := by
    rw [mul_comm]
    exact (div_le_iff₀ hpos).mp (hshare.trans hceil)
  exact_mod_cast hle

theorem isSome_applyWriteFusion {tx : Transaction} {executor acc : ℕ}
    (h : (partition acc).isSome) : (applyWriteFusion tx executor partition acc).isSome := by
  unfold applyWriteFusion
  split
  · rfl
  · exact h

theorem countRemoteReads_ok (partition : Partition) {routed : List (Transaction × ℕ)}
    (total : ℕ) (hrange : ∀ x ∈ routed, x.2 < n)
    (hknown : ∀ x ∈ routed, ∀ acc ∈ x.1.readSet, (partition acc).isSome) :
    ∃ reads, countRemoteReads n partition routed total = .ok reads := by
  induction routed generalizing partition total with
  | nil => exact ⟨total, rfl⟩
  | cons x routed ih =>
      obtain ⟨tx, executorId⟩ := x
      rw [List.forall_mem_cons] at hrange hknown
      unfold countRemoteReads
      rw [if_pos hrange.1, if_pos hknown.1]
      exact ih _ _ hrange.2 fun x hx acc hacc => isSome_applyWriteFusion (hknown.2 x hx acc hacc)

theorem maxLoad_le {schedule : List ℕ} {cap : ℕ} (h : ∀ e, schedule.count e ≤ cap) :
    ((schedule.map fun e => schedule.count e).max?).getD 0 ≤ cap := by
  cases hmax : (schedule.map fun e => schedule.count e).max? with
  | none => exact Nat.zero_le cap
  | some load =>
      obtain ⟨e, -, rfl⟩ := List.mem_map.mp (List.max?_mem hmax)
      exact h e

/-- The evaluator finds a schedule within the cap to have a finite cost. -/
theorem evaluateBatchSchedule_ok {ordered batch : List Transaction} {schedule : List ℕ}
    (hn : 1 ≤ n) (hperm : ordered.Perm batch) (hlen : schedule.length = ordered.length)
    (hrange : ∀ e ∈ schedule, e < n) (hcap : ∀ e, schedule.count e ≤ theta batch.length n epsilon)
    (hknown : ∀ tx ∈ batch, ∀ acc ∈ tx.readSet, (partition acc).isSome) :
    ∃ reads, evaluateBatchSchedule partition n ordered schedule batch epsilon =
      .ok (some reads) := by
  obtain ⟨reads, hreads⟩ := countRemoteReads_ok partition (n := n) 0
    (fun x hx => hrange x.2 (List.of_mem_zip hx).2)
    fun x hx => hknown x.1 (hperm.mem_iff.mp (List.of_mem_zip hx).1)
  refine ⟨reads, ?_⟩
  unfold evaluateBatchSchedule
  rw [if_neg (not_not.mpr hlen.symm), if_neg (not_not.mpr hperm.length_eq),
    if_neg (show n ≠ 0 by omega), hreads, hperm.length_eq]
  exact congrArg Except.ok (if_neg (not_lt.mpr (maxLoad_le hcap)))

/-- The scheduler terminates with a permutation of the batch and an executor for each position,
    none of which gets more than `theta`. The evaluator finds nothing to object to. -/
theorem scheduler_output (order : SetOrder) (partition : Partition) (batch : List Transaction)
    (n : ℕ) (epsilon : ℚ) (hn : 1 ≤ n) (hepsilon : 0 ≤ epsilon) :
    ∃ schedule ordered,
      (∀ fuel, batch.length + maxDelta < fuel →
        scheduler order fuel partition batch n epsilon = .ok (schedule, ordered)) ∧
      ordered.Perm batch ∧ schedule.length = ordered.length ∧ (∀ e ∈ schedule, e < n) ∧
      (∀ e, schedule.count e ≤ theta batch.length n epsilon) ∧
      ((∀ tx ∈ batch, ∀ acc ∈ tx.readSet, (partition acc).isSome) →
        ∃ reads, evaluateBatchSchedule partition n ordered schedule batch epsilon =
          .ok (some reads)) := by
  suffices h : ∃ schedule ordered,
      (∀ fuel, batch.length + maxDelta < fuel →
        scheduler order fuel partition batch n epsilon = .ok (schedule, ordered)) ∧
      ordered.Perm batch ∧ schedule.length = ordered.length ∧ (∀ e ∈ schedule, e < n) ∧
      ∀ e, schedule.count e ≤ theta batch.length n epsilon by
    obtain ⟨schedule, ordered, hok, hperm, hlen, hrange, hcap⟩ := h
    exact ⟨schedule, ordered, hok, hperm, hlen, hrange, hcap,
      evaluateBatchSchedule_ok hn hperm hlen hrange hcap⟩
  by_cases hempty : batch = []
  · subst hempty
    exact ⟨[], [], fun fuel _ => rfl, .nil, rfl, by simp, fun e => Nat.zero_le _⟩
  obtain ⟨partitionFinal, ordered, routes, hroute, hperm, hlen, hrange⟩ :=
    route_ok partition [] [] hn rfl rfl (by simp)
  rw [List.nil_append] at hperm
  have hlength : routes.length = batch.length := hlen.trans hperm.length_eq
  have hstart : (computeLoadSets routes n (theta batch.length n epsilon)
      partitionFinal).Rebalancing n (theta batch.length n epsilon) batch.length :=
    rebalancing_computeLoadSets partitionFinal hlength hrange
  have hexcess : excess n (theta batch.length n epsilon) routes ≤ routes.length :=
    excess_le hrange
  obtain ⟨s, hs, hreroute⟩ := hstart.reroute order ordered 1
    (k := batch.length + maxDelta) (Nat.add_le_add (hexcess.trans hlength.le) (by decide))
  have hresult : ∀ fuel, batch.length + maxDelta < fuel →
      scheduler order fuel partition batch n epsilon = .ok
        ((if s.overloaded = ∅ then s else fallback n ordered (theta batch.length n epsilon)
          (backward s.schedule) s).schedule, ordered) := by
    intro fuel hfuel
    unfold scheduler
    rw [if_neg hempty, hroute]
    simp only [bind, Except.bind, hreroute fuel hfuel]
  by_cases hover : s.overloaded = ∅
  · simp only [if_pos hover] at hresult
    exact ⟨_, _, hresult, hperm, hs.length.trans hperm.length_eq.symm, hs.range,
      hs.le_of_overloaded hover⟩
  · simp only [if_neg hover] at hresult
    obtain ⟨hsound, hcap⟩ := fallback_le (backward s.schedule)
      (le_mul_theta hn hepsilon) hperm.length_eq hs.toSound fun i e hi hnot => by
        refine absurd (List.mem_reverse.mpr (List.mem_range.mpr ?_)) hnot
        exact (List.getElem?_eq_some_iff.mp hi).1
    exact ⟨_, _, hresult, hperm, hsound.length.trans hperm.length_eq.symm, hsound.range, hcap⟩

namespace Sample

/-- All accounts are with executor 0. -/
def owners : Partition := fun _ => some 0

/-- It reads so many accounts that Step 3 does not move it. -/
def wide (id : ℕ) : Transaction := ⟨id, List.range 9, [id]⟩

def batch : List Transaction := [wide 0, wide 1]

end Sample

open Sample in
theorem scheduler_output_sample : ∃ schedule ordered,
    scheduler default 11 owners batch 2 0 = .ok (schedule, ordered) ∧
    ordered.Perm batch ∧ schedule.length = ordered.length ∧ (∀ e ∈ schedule, e < 2) ∧
    (∀ e, schedule.count e ≤ theta 2 2 0) ∧
    ∃ reads, evaluateBatchSchedule owners 2 ordered schedule batch 0 =
      .ok (some reads) := by
  obtain ⟨schedule, ordered, hok, hperm, hlen, hrange, hcap, hevaluate⟩ :=
    scheduler_output default owners batch 2 0 (by decide) le_rfl
  exact ⟨schedule, ordered, hok 11 (by decide), hperm, hlen, hrange, hcap,
    hevaluate fun _ _ _ _ => rfl⟩

open Sample in
/-- The fallback moves the second transaction. -/
example : (scheduler default 11 owners batch 2 0).toOption = some ([0, 1], batch) := by
  decide +kernel

end Result

end DagBft.Simulator.Hermes
