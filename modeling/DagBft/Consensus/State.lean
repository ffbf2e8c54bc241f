/-
  Tusk (`consensus/src/lib.rs`): the state of the consensus task and one iteration of
  the loop of `Consensus::run`, with the walk over past leaders and the depth-first
  search that flattens the sub-DAG of a leader.

  A certificate goes in; the leaders that are committed and the certificates that are
  output come out. `none` stands for a panic. The load-balancing task gets a copy of
  every certificate and never answers, so it is not part of this state.

  The digest of a certificate is computed by `Certificate.digest`. The coin is the
  round number, as in the build without `cfg(test)`.
-/
import DagBft.Lib.AssocMap
import DagBft.Lib.Dfs
import DagBft.Primary.Messages
import Mathlib.Data.List.Sort

namespace DagBft.Consensus

variable (PublicKey Digest Signature : Type) [LinearOrder PublicKey] [LinearOrder Digest]

/-- The certificates of a round, by author. -/
abbrev Authorities := AList fun _ : PublicKey => Digest × Certificate PublicKey Digest Signature

/-- The representation of the DAG in memory. -/
abbrev Dag := ℕ → Option (Authorities PublicKey Digest Signature)

/-- The state that needs to be persisted for crash-recovery. -/
structure State where
  /-- The last committed round. -/
  lastCommittedRound : ℕ
  /-- The last committed round for each authority. -/
  lastCommitted : AList fun _ : PublicKey => ℕ
  dag : Dag PublicKey Digest Signature

/-- The immutable part of `Consensus`. -/
structure Params where
  committee : Committee PublicKey
  gcDepth : ℕ

variable {PublicKey Digest Signature}

/-- `round - 1` on `u64`, as the release build computes it. -/
def prevRound (round : ℕ) : ℕ := if round = 0 then 2 ^ 64 - 1 else round - 1

theorem prevRound_succ (r : ℕ) : prevRound (r + 1) = r := by simp [prevRound]

namespace Dag

/-- `dag.entry(round).or_insert_with(HashMap::new).insert(name, x)`. -/
def insert (dag : Dag PublicKey Digest Signature) (round : ℕ) (name : PublicKey)
    (x : Digest × Certificate PublicKey Digest Signature) : Dag PublicKey Digest Signature :=
  Function.update dag round (some (((dag round).getD ∅).insert name x))

/-- One pass of the clean-up in `State::update`: drop what `name` issued before `round`,
    the rounds left empty, and the rounds that are too old. -/
def retain (dag : Dag PublicKey Digest Signature) (name : PublicKey) (round : ℕ)
    (gcDepth lastCommittedRound : ℕ) : Dag PublicKey Digest Signature := fun r =>
  (dag r).bind fun authorities =>
    let authorities := authorities.retain fun n _ => n ≠ name ∨ round ≤ r
    if authorities.entries ≠ [] ∧ lastCommittedRound ≤ r + gcDepth then some authorities else none

end Dag

namespace State

variable [AsBytes PublicKey] [AsBytes Digest] [Sha512 Digest]

/-- `State::new`. -/
def new (genesis : List (Certificate PublicKey Digest Signature)) :
    State PublicKey Digest Signature :=
  { lastCommittedRound := 0
    lastCommitted := genesis.foldl (fun m x => m.insert x.origin x.round) ∅
    dag := fun r => if r = 0 then
        some (genesis.foldl (fun m x => m.insert x.origin (x.digest, x)) ∅)
      else none }

omit [AsBytes PublicKey] [AsBytes Digest] [Sha512 Digest] in
/-- The entry of the author of a committed certificate. -/
def bumpCommitted (m : AList fun _ : PublicKey => ℕ)
    (certificate : Certificate PublicKey Digest Signature) : AList fun _ : PublicKey => ℕ :=
  match m.lookup certificate.origin with
  | some r => m.insert certificate.origin (max r certificate.round)
  | none => m.insert certificate.origin certificate.round

omit [AsBytes PublicKey] [AsBytes Digest] [Sha512 Digest] in
/-- Update and clean up internal state base on committed certificates. -/
def update (s : State PublicKey Digest Signature)
    (certificate : Certificate PublicKey Digest Signature) (gcDepth : ℕ) :
    State PublicKey Digest Signature :=
  let lastCommitted := bumpCommitted s.lastCommitted certificate
  let lastCommittedRound := lastCommitted.values.foldl max 0
  { lastCommittedRound := lastCommittedRound
    lastCommitted := lastCommitted
    dag := lastCommitted.entries.foldl
      (fun dag x => dag.retain x.1 x.2 gcDepth lastCommittedRound) s.dag }

/-- Add a new certificate to the DAG. -/
def add (s : State PublicKey Digest Signature)
    (certificate : Certificate PublicKey Digest Signature) : State PublicKey Digest Signature :=
  { s with
    dag := s.dag.insert certificate.round certificate.origin (certificate.digest, certificate) }

@[simp]
theorem lastCommittedRound_add (s : State PublicKey Digest Signature)
    (c : Certificate PublicKey Digest Signature) :
    (s.add c).lastCommittedRound = s.lastCommittedRound := rfl

@[simp]
theorem lastCommitted_add (s : State PublicKey Digest Signature)
    (c : Certificate PublicKey Digest Signature) :
    (s.add c).lastCommitted = s.lastCommitted := rfl

end State

namespace Params

/-- The author elected for a round. `none` on an empty committee, where the source
    divides by zero. -/
def leaderKey (p : Params PublicKey) (round : ℕ) : Option PublicKey :=
  (p.committee.keys.insertionSort (· ≤ ·))[round % p.committee.size]?

/-- The certificate (and its digest) originated by the leader of the specified round. -/
def leader (p : Params PublicKey) (round : ℕ) (dag : Dag PublicKey Digest Signature) :
    Option (Digest × Certificate PublicKey Digest Signature) :=
  (p.leaderKey round).bind fun name => (dag round).bind fun x => x.lookup name

end Params

/-- One round of `linked`: the certificates of round `r` that some of `parents` refers to. -/
def linkedStep (dag : Dag PublicKey Digest Signature)
    (parents : List (Certificate PublicKey Digest Signature)) (r : ℕ) :
    Option (List (Certificate PublicKey Digest Signature)) :=
  (dag r).map fun authorities =>
    (authorities.values.filter fun x => parents.any fun y => x.1 ∈ y.header.parents).map Prod.snd

/-- The rounds `lo..hi`, from the last to the first. -/
def roundsDown (lo hi : ℕ) : List ℕ := (List.range' lo (hi - lo)).reverse

/-- Checks if there is a path between two leaders. -/
def linked (leader prevLeader : Certificate PublicKey Digest Signature)
    (dag : Dag PublicKey Digest Signature) : Option Bool :=
  ((roundsDown prevLeader.round leader.round).foldlM (linkedStep dag) [leader]).map
    fun parents => parents.any fun x => x.same prevLeader

/-- The rounds `lo..=hi`, from the last to the first, two at a time. -/
def stepDown (lo hi : ℕ) : List ℕ :=
  if lo ≤ hi then (List.range ((hi - lo) / 2 + 1)).map fun k => hi - 2 * k else []

/-- One iteration of `order_leaders`: the leaders to commit, and the last one found. -/
def orderLeadersStep (p : Params PublicKey) (dag : Dag PublicKey Digest Signature)
    (acc : List (Certificate PublicKey Digest Signature) × Certificate PublicKey Digest Signature)
    (r : ℕ) :
    Option (List (Certificate PublicKey Digest Signature) ×
      Certificate PublicKey Digest Signature) :=
  match p.leader r dag with
  | none => some acc
  | some (_, prevLeader) =>
      (linked acc.2 prevLeader dag).map fun b =>
        if b then (acc.1 ++ [prevLeader], prevLeader) else acc

/-- Order the past leaders that we didn't already commit. -/
def orderLeaders (p : Params PublicKey) (leader : Certificate PublicKey Digest Signature)
    (s : State PublicKey Digest Signature) :
    Option (List (Certificate PublicKey Digest Signature)) :=
  ((stepDown (s.lastCommittedRound + 2) (leader.round - 2)).foldlM
    (orderLeadersStep p s.dag) ([leader], leader)).map Prod.fst

/-- The parent of `x` with this digest, if the DAG still holds it and it is not the last
    committed certificate of its author. -/
def heldParent (s : State PublicKey Digest Signature)
    (x : Certificate PublicKey Digest Signature) (parent : Digest) :
    Option (Digest × Certificate PublicKey Digest Signature) :=
  ((s.dag (prevRound x.round)).bind fun authorities =>
    -- `None`: we already ordered or GC up to here.
    authorities.values.find? fun y => y.1 = parent).filter fun y =>
      -- We reached a round that we already committed for this authority.
      s.lastCommitted.lookup y.2.origin ≠ some y.2.round

/-- The parents of `x` that `order_dag` visits, unless it already did. -/
def children (s : State PublicKey Digest Signature)
    (x : Certificate PublicKey Digest Signature) :
    List (Digest × Certificate PublicKey Digest Signature) :=
  x.header.parents.toList.filterMap (heldParent s x)

/-- How many certificates the DAG holds below a round: a bound on the length of the
    search. -/
def dagSize (dag : Dag PublicKey Digest Signature) (round : ℕ) : ℕ :=
  ((List.range round).map fun r => ((dag r).elim 0 fun a => a.entries.length)).sum

/-- Flatten the dag referenced by the input certificate. -/
def orderDag (p : Params PublicKey) (leader : Certificate PublicKey Digest Signature)
    (s : State PublicKey Digest Signature) :
    Option (List (Certificate PublicKey Digest Signature)) :=
  (dfs (children s) (dagSize s.dag leader.round + 1) [leader] []).map fun ordered =>
    -- Ensure we do not commit garbage collected certificates.
    (ordered.filter fun x => s.lastCommittedRound ≤ x.round + p.gcDepth).insertionSort
      -- Ordering the output by round makes the commit sequence prettier.
      fun x y => x.round ≤ y.round

/-- Commit one leader: flatten its sub-DAG and update the state for each certificate. -/
def commitLeader (p : Params PublicKey)
    (acc : State PublicKey Digest Signature × List (Certificate PublicKey Digest Signature))
    (leader : Certificate PublicKey Digest Signature) :
    Option (State PublicKey Digest Signature × List (Certificate PublicKey Digest Signature)) :=
  (orderDag p leader acc.1).map fun xs =>
    (xs.foldl (fun s x => s.update x p.gcDepth) acc.1, acc.2 ++ xs)

/-- What one iteration of the loop does besides changing the state. -/
structure Commit (PublicKey Digest Signature : Type) [LinearOrder Digest] where
  /-- `order_leaders`, oldest first. -/
  leaders : List (Certificate PublicKey Digest Signature)
  /-- The certificates that are output, in order. -/
  sequence : List (Certificate PublicKey Digest Signature)

variable [AsBytes PublicKey] [AsBytes Digest] [Sha512 Digest]

/-- The stake of the certificates of round `r` that refer to the leader. -/
def support (p : Params PublicKey) (dag : Dag PublicKey Digest Signature) (r : ℕ)
    (leaderDigest : Digest) : Option ℕ :=
  (dag r).map fun authorities =>
    sumU32 ((authorities.values.filter fun x => leaderDigest ∈ x.2.header.parents).map
      fun x => p.committee.stake x.2.origin)

omit [AsBytes PublicKey] [AsBytes Digest] [Sha512 Digest] in
/-- The leader that a new certificate of this round lets us commit, if any. The outer
    `none` is a panic. -/
def electedLeader (p : Params PublicKey) (s : State PublicKey Digest Signature) (round : ℕ) :
    Option (Option (Certificate PublicKey Digest Signature)) :=
  -- Start from the highest round for which we have at least 2f+1 certificates.
  let r := prevRound round
  -- We only elect leaders for even round numbers.
  if r % 2 ≠ 0 ∨ r < 4 then some none
  -- If we already ordered this leader, there is nothing to do.
  else if r - 2 ≤ s.lastCommittedRound then some none
  else if p.committee.size = 0 then none
  else match p.leader (r - 2) s.dag with
    | none => some none
    | some (leaderDigest, leader) =>
        -- Check if the leader has f+1 support from its children (ie. round r-1).
        (support p s.dag (r - 1) leaderDigest).map fun stake =>
          if stake < p.committee.validityThreshold then none else some leader

/-- One iteration of the loop of `Consensus::run`. -/
def runStep (p : Params PublicKey) (s : State PublicKey Digest Signature)
    (certificate : Certificate PublicKey Digest Signature) :
    Option (State PublicKey Digest Signature × Commit PublicKey Digest Signature) :=
  let s := s.add certificate
  match electedLeader p s certificate.round with
  | none => none
  | some none => some (s, ⟨[], []⟩)
  | some (some leader) =>
      (orderLeaders p leader s).bind fun toCommit =>
        (toCommit.reverse.foldlM (commitLeader p) (s, [])).map fun (s, sequence) =>
          (s, ⟨toCommit.reverse, sequence⟩)

/-- The state of a validator together with everything it has committed and output. -/
structure Log (PublicKey Digest Signature : Type) [LinearOrder PublicKey] [LinearOrder Digest] where
  state : State PublicKey Digest Signature
  leaders : List (Certificate PublicKey Digest Signature)
  output : List (Certificate PublicKey Digest Signature)

def logStep (p : Params PublicKey) (l : Log PublicKey Digest Signature)
    (certificate : Certificate PublicKey Digest Signature) :
    Option (Log PublicKey Digest Signature) :=
  (runStep p l.state certificate).map fun (s, c) =>
    ⟨s, l.leaders ++ c.leaders, l.output ++ c.sequence⟩

variable [Inhabited PublicKey] [Inhabited Digest] [Inhabited Signature]

/-- A validator before it has received anything. -/
def Log.initial (p : Params PublicKey) : Log PublicKey Digest Signature :=
  ⟨State.new (Certificate.genesis p.committee), [], []⟩

/-- `Consensus::run` on the certificates received so far. -/
def run (p : Params PublicKey) (received : List (Certificate PublicKey Digest Signature)) :
    Option (Log PublicKey Digest Signature) :=
  received.foldlM (logStep p) (Log.initial p)

end DagBft.Consensus
