/-
  What `Consensus` reads of a certificate: nothing of its votes, nor of the signature of its
  header.

  Each function of the walk and of the search commutes with `Certificate.unsigned`, which
  leaves both out; `run_unsigned` puts them together. So validators that are given different
  certificates for the same headers commit the same (`run_eq_of_content`).
-/
import DagBft.Lib.Runs
import DagBft.Consensus.Agreement

namespace DagBft

variable {PublicKey Digest Signature : Type} [LinearOrder PublicKey] [LinearOrder Digest]
  [Inhabited Signature]

/-- The certificate without its votes and without the signature of its header. -/
def Certificate.unsigned (c : Certificate PublicKey Digest Signature) :
    Certificate PublicKey Digest Signature :=
  ⟨{ c.header with signature := default }, []⟩

section Unsigned

variable (c c' : Certificate PublicKey Digest Signature)

omit [LinearOrder PublicKey] in
@[simp]
theorem Certificate.round_unsigned : c.unsigned.round = c.round := rfl

omit [LinearOrder PublicKey] in
@[simp]
theorem Certificate.origin_unsigned : c.unsigned.origin = c.origin := rfl

omit [LinearOrder PublicKey] in
@[simp]
theorem Certificate.parents_unsigned : c.unsigned.header.parents = c.header.parents := rfl

@[simp]
theorem Certificate.same_unsigned : c.unsigned.same c'.unsigned = c.same c' := rfl

omit [LinearOrder PublicKey] in
@[simp]
theorem Certificate.digest_unsigned [AsBytes PublicKey] [AsBytes Digest] [Sha512 Digest] :
    c.unsigned.digest = c.digest := rfl

end Unsigned

theorem Certificate.unsigned_genesis [Inhabited PublicKey] [Inhabited Digest]
    (committee : Committee PublicKey) :
    ((genesis committee : List (Certificate PublicKey Digest Signature)).map unsigned) =
      genesis committee := by
  simp [genesis, unsigned, Function.comp_def, default]

namespace Consensus

open Toy

/-- An entry of the DAG. -/
def unsignedEntry (x : Digest × Certificate PublicKey Digest Signature) :
    Digest × Certificate PublicKey Digest Signature := (x.1, x.2.unsigned)

def Dag.unsigned (dag : Dag PublicKey Digest Signature) : Dag PublicKey Digest Signature :=
  fun r => (dag r).map (AList.mapValues unsignedEntry)

def State.unsigned (s : State PublicKey Digest Signature) : State PublicKey Digest Signature :=
  { s with dag := s.dag.unsigned }

def Log.unsigned (l : Log PublicKey Digest Signature) : Log PublicKey Digest Signature :=
  ⟨l.state.unsigned, l.leaders.map Certificate.unsigned, l.output.map Certificate.unsigned⟩

variable (p : Params PublicKey) (dag : Dag PublicKey Digest Signature)
  (s : State PublicKey Digest Signature) (c c' : Certificate PublicKey Digest Signature)

/-! ## The state -/

theorem Dag.insert_unsigned (round : ℕ) (name : PublicKey)
    (x : Digest × Certificate PublicKey Digest Signature) :
    dag.unsigned.insert round name (unsignedEntry x) = (dag.insert round name x).unsigned := by
  funext r
  unfold Dag.insert Dag.unsigned
  by_cases hr : r = round
  · subst hr
    rw [Function.update_self, Function.update_self, Option.map_some, ← AList.insert_mapValues]
    cases dag r <;> rfl
  · rw [Function.update_of_ne hr, Function.update_of_ne hr]

theorem Dag.retain_unsigned (name : PublicKey) (round gcDepth lastCommittedRound : ℕ) :
    dag.unsigned.retain name round gcDepth lastCommittedRound =
      (dag.retain name round gcDepth lastCommittedRound).unsigned := by
  funext r
  unfold Dag.retain Dag.unsigned
  cases hr : dag r with
  | none => simp only [hr, Option.map_none, Option.bind_none]
  | some authorities =>
      have hnil : ((authorities.retain fun n _ => n ≠ name ∨ round ≤ r).mapValues
          unsignedEntry).entries ≠ [] ↔
            (authorities.retain fun n _ => n ≠ name ∨ round ≤ r).entries ≠ [] := by
        simp [AList.mapValues]
      simp only [hr, Option.map_some, Option.bind_some,
        AList.retain_mapValues unsignedEntry (fun n => n ≠ name ∨ round ≤ r), hnil]
      split <;> rfl

theorem State.update_unsigned (gcDepth : ℕ) :
    s.unsigned.update c.unsigned gcDepth = (s.update c gcDepth).unsigned := by
  have hfold : ∀ (l : List (Sigma fun _ : PublicKey => ℕ)) (lastCommittedRound : ℕ)
      (dag : Dag PublicKey Digest Signature),
      l.foldl (fun dag x => dag.retain x.1 x.2 gcDepth lastCommittedRound) dag.unsigned =
        (l.foldl (fun dag x => dag.retain x.1 x.2 gcDepth lastCommittedRound) dag).unsigned := by
    intro l lastCommittedRound
    induction l with
    | nil => exact fun _ => rfl
    | cons x l ih =>
        intro dag
        rw [List.foldl_cons, List.foldl_cons, Dag.retain_unsigned]
        exact ih _
  have hbump : bumpCommitted s.lastCommitted c.unsigned = bumpCommitted s.lastCommitted c := rfl
  unfold State.update
  simp only [State.unsigned, hbump, hfold]

/-! ## Leaders -/

theorem leader_unsigned (round : ℕ) :
    p.leader round dag.unsigned = (p.leader round dag).map unsignedEntry := by
  unfold Params.leader Dag.unsigned
  cases p.leaderKey round with
  | none => rfl
  | some name =>
      cases dag round with
      | none => rfl
      | some authorities => exact AList.lookup_mapValues unsignedEntry authorities name

omit [LinearOrder PublicKey] in
theorem linkedStep_unsigned (parents : List (Certificate PublicKey Digest Signature)) (r : ℕ) :
    linkedStep dag.unsigned (parents.map Certificate.unsigned) r =
      (linkedStep dag parents r).map (List.map Certificate.unsigned) := by
  unfold linkedStep Dag.unsigned
  cases dag r with
  | none => rfl
  | some authorities =>
      simp only [Option.map_some, AList.values_mapValues, List.filter_map, List.map_map,
        Function.comp_def, List.any_map]
      rfl

theorem linked_unsigned :
    linked c.unsigned c'.unsigned dag.unsigned = linked c c' dag := by
  have hfold := foldlM_map (List.map Certificate.unsigned) id (linkedStep_unsigned dag)
    [c] (roundsDown c'.round c.round)
  rw [List.map_id, List.map_singleton] at hfold
  unfold linked
  rw [Certificate.round_unsigned, Certificate.round_unsigned, hfold, Option.map_map]
  simp only [Function.comp_def, List.any_map, Certificate.same_unsigned]

theorem orderLeadersStep_unsigned
    (acc : List (Certificate PublicKey Digest Signature) × Certificate PublicKey Digest Signature)
    (r : ℕ) :
    orderLeadersStep p dag.unsigned (acc.1.map Certificate.unsigned, acc.2.unsigned) r =
      (orderLeadersStep p dag acc r).map
        fun acc => (acc.1.map Certificate.unsigned, acc.2.unsigned) := by
  unfold orderLeadersStep
  rw [leader_unsigned]
  cases p.leader r dag with
  | none => rfl
  | some x =>
      obtain ⟨d, prevLeader⟩ := x
      simp only [Option.map_some, unsignedEntry, linked_unsigned, Option.map_map]
      congr 1
      funext b
      cases b
      · rfl
      · simp

theorem orderLeaders_unsigned :
    orderLeaders p c.unsigned s.unsigned =
      (orderLeaders p c s).map (List.map Certificate.unsigned) := by
  have hfold := foldlM_map
    (fun acc : List (Certificate PublicKey Digest Signature) ×
      Certificate PublicKey Digest Signature => (acc.1.map Certificate.unsigned, acc.2.unsigned))
    id (orderLeadersStep_unsigned p s.dag) ([c], c)
    (stepDown (s.lastCommittedRound + 2) (c.round - 2))
  rw [List.map_id] at hfold
  unfold orderLeaders
  rw [Certificate.round_unsigned]
  refine (congrArg (Option.map Prod.fst) hfold).trans ?_
  rw [Option.map_map, Option.map_map]
  rfl

/-! ## The search -/

theorem heldParent_unsigned (parent : Digest) :
    heldParent s.unsigned c.unsigned parent = (heldParent s c parent).map unsignedEntry := by
  unfold heldParent State.unsigned Dag.unsigned
  rw [Certificate.round_unsigned]
  cases hrow : s.dag (prevRound c.round) with
  | none => simp only [hrow, Option.map_none, Option.bind_none, Option.filter_none]
  | some authorities =>
      simp only [hrow, Option.map_some, Option.bind_some, AList.values_mapValues, List.find?_map,
        Option.filter_map, Function.comp_def]
      rfl

theorem children_unsigned :
    children s.unsigned c.unsigned = (children s c).map unsignedEntry := by
  unfold children
  rw [Certificate.parents_unsigned, List.map_filterMap]
  congr 1
  funext parent
  exact heldParent_unsigned s c parent

omit [LinearOrder PublicKey] in
theorem dagSize_unsigned (round : ℕ) : dagSize dag.unsigned round = dagSize dag round := by
  unfold dagSize Dag.unsigned
  congr 2
  funext r
  cases dag r with
  | none => rfl
  | some authorities => simp [AList.mapValues]

theorem orderDag_unsigned :
    orderDag p c.unsigned s.unsigned = (orderDag p c s).map (List.map Certificate.unsigned) := by
  unfold orderDag
  have hsize : dagSize s.unsigned.dag c.unsigned.round = dagSize s.dag c.round :=
    dagSize_unsigned s.dag c.round
  rw [hsize, ← List.map_singleton (f := Certificate.unsigned),
    dfs_map Certificate.unsigned (children_unsigned s), Option.map_map, Option.map_map]
  congr 1
  funext ordered
  have hsort := List.map_insertionSort
    (r := fun x y : Certificate PublicKey Digest Signature => x.round ≤ y.round)
    (s := fun x y : Certificate PublicKey Digest Signature => x.round ≤ y.round)
    Certificate.unsigned (ordered.filter fun x => s.lastCommittedRound ≤ x.round + p.gcDepth)
    fun _ _ _ _ => Iff.rfl
  simp only [Function.comp_def, hsort, List.filter_map]
  rfl

theorem commitLeader_unsigned
    (acc : State PublicKey Digest Signature × List (Certificate PublicKey Digest Signature)) :
    commitLeader p (acc.1.unsigned, acc.2.map Certificate.unsigned) c.unsigned =
      (commitLeader p acc c).map
        fun acc => (acc.1.unsigned, acc.2.map Certificate.unsigned) := by
  have hfold : ∀ (xs : List (Certificate PublicKey Digest Signature))
      (s : State PublicKey Digest Signature),
      (xs.map Certificate.unsigned).foldl (fun s x => s.update x p.gcDepth) s.unsigned =
        (xs.foldl (fun s x => s.update x p.gcDepth) s).unsigned := by
    intro xs
    induction xs with
    | nil => exact fun _ => rfl
    | cons x xs ih =>
        intro s
        rw [List.map_cons, List.foldl_cons, List.foldl_cons, State.update_unsigned]
        exact ih _
  unfold commitLeader
  rw [orderDag_unsigned, Option.map_map, Option.map_map]
  congr 1
  funext xs
  simp only [Function.comp_def, hfold, List.map_append]

/-! ## The loop -/

theorem support_unsigned (r : ℕ) (leaderDigest : Digest) :
    support p dag.unsigned r leaderDigest = support p dag r leaderDigest := by
  unfold support Dag.unsigned
  cases dag r with
  | none => rfl
  | some authorities =>
      simp only [Option.map_some, AList.values_mapValues, List.filter_map, List.map_map,
        Function.comp_def]
      rfl

theorem electedLeader_unsigned (round : ℕ) :
    electedLeader p s.unsigned round =
      (electedLeader p s round).map (Option.map Certificate.unsigned) := by
  unfold electedLeader
  simp only [State.unsigned, leader_unsigned, support_unsigned]
  split
  · rfl
  split
  · rfl
  split
  · rfl
  cases p.leader (prevRound round - 2) s.dag with
  | none => rfl
  | some x =>
      obtain ⟨d, leader⟩ := x
      simp only [Option.map_some, unsignedEntry, Option.map_map]
      congr 1
      funext stake
      simp only [Function.comp_def]
      split <;> rfl

variable [AsBytes PublicKey] [AsBytes Digest] [Sha512 Digest]

theorem State.add_unsigned : s.unsigned.add c.unsigned = (s.add c).unsigned := by
  unfold State.add State.unsigned
  rw [← Dag.insert_unsigned]
  rfl

theorem runStep_unsigned :
    runStep p s.unsigned c.unsigned = (runStep p s c).map fun x =>
      (x.1.unsigned, ⟨x.2.leaders.map Certificate.unsigned,
        x.2.sequence.map Certificate.unsigned⟩) := by
  unfold runStep
  simp only [State.add_unsigned, electedLeader_unsigned, Certificate.round_unsigned]
  cases electedLeader p (s.add c) c.round with
  | none => rfl
  | some elected =>
      cases elected with
      | none => rfl
      | some leader =>
          simp only [Option.map_some, orderLeaders_unsigned]
          cases orderLeaders p leader (s.add c) with
          | none => rfl
          | some toCommit =>
              have hfold := foldlM_map
                (fun acc : State PublicKey Digest Signature ×
                  List (Certificate PublicKey Digest Signature) =>
                    (acc.1.unsigned, acc.2.map Certificate.unsigned))
                Certificate.unsigned (fun acc x => commitLeader_unsigned p x acc)
                (s.add c, []) toCommit.reverse
              simp only [Option.map_some, Option.bind_some, ← List.map_reverse]
              refine (congrArg (Option.map _) hfold).trans ?_
              rw [Option.map_map, Option.map_map]
              rfl

theorem logStep_unsigned (l : Log PublicKey Digest Signature) :
    logStep p l.unsigned c.unsigned = (logStep p l c).map Log.unsigned := by
  unfold logStep
  have hstep := runStep_unsigned p l.state c
  refine (congrArg (Option.map _) hstep).trans ?_
  rw [Option.map_map, Option.map_map]
  congr 1
  funext x
  simp [Log.unsigned]

variable [Inhabited PublicKey] [Inhabited Digest]

theorem Log.initial_unsigned :
    (Log.initial p : Log PublicKey Digest Signature).unsigned = Log.initial p := by
  have hfold : ∀ (l : List (Certificate PublicKey Digest Signature))
      (m : Authorities PublicKey Digest Signature),
      (l.foldl (fun m x => m.insert x.origin (x.digest, x)) m).mapValues unsignedEntry =
        (l.map Certificate.unsigned).foldl (fun m x => m.insert x.origin (x.digest, x))
          (m.mapValues unsignedEntry) := by
    intro l
    induction l with
    | nil => exact fun _ => rfl
    | cons x l ih =>
        intro m
        rw [List.map_cons, List.foldl_cons, List.foldl_cons, ih, ← AList.insert_mapValues]
        rfl
  have hrow := hfold (Certificate.genesis p.committee) ∅
  rw [Certificate.unsigned_genesis] at hrow
  unfold Log.initial Log.unsigned State.unsigned State.new
  simp only [List.map_nil, Log.mk.injEq, State.mk.injEq, and_true, true_and]
  funext r
  unfold Dag.unsigned
  by_cases hr : r = 0
  · simp only [hr, if_true, Option.map_some, hrow]
    rfl
  · simp only [hr, if_false, Option.map_none]

/-- `Consensus::run` on certificates without votes and signatures. -/
theorem run_unsigned (received : List (Certificate PublicKey Digest Signature)) :
    run p (received.map Certificate.unsigned) = (run p received).map Log.unsigned := by
  unfold run
  rw [← foldlM_map Log.unsigned Certificate.unsigned (fun l c => logStep_unsigned p c l)
    (Log.initial p) received, Log.initial_unsigned]

/-- Validators that receive certificates for the same headers, in the same order, do the same:
    both panic, or both commit the same leaders and output the same certificates. It does not
    matter which votes certify a header for each of them. -/
theorem run_eq_of_content (p : Params PublicKey)
    (received received' : List (Certificate PublicKey Digest Signature))
    (h : received.map Certificate.unsigned = received'.map Certificate.unsigned) :
    (run p received).map Log.unsigned = (run p received').map Log.unsigned := by
  rw [← run_unsigned, ← run_unsigned, h]

/-- The certificates of `Sample.orderEarly`, each with a vote. -/
def Sample.voted : List (Certificate ℕ ℕ Unit) :=
  Sample.orderEarly.map fun c => { c with votes := [(c.origin, ())] }

theorem run_eq_of_content_sample :
    (run Sample.params Sample.orderEarly).map Log.unsigned =
      (run Sample.params Sample.voted).map Log.unsigned :=
  run_eq_of_content Sample.params Sample.orderEarly Sample.voted (by
    simp [Sample.voted, Certificate.unsigned, Function.comp_def])

end Consensus

end DagBft
