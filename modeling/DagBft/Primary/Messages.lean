/-
  Headers, votes and certificates (`primary/src/messages.rs`), with their digests and
  their verification.
-/
import DagBft.Config
import DagBft.Crypto

namespace DagBft

open AsBytes Sha512

/-- `DagError`, without the storage failures (the node is killed on those). -/
inductive DagError (PublicKey Digest : Type)
  | invalidSignature
  | serializationError
  | invalidHeaderId
  | malformedHeader (id : Digest)
  | unknownAuthority (name : PublicKey)
  | authorityReuse (name : PublicKey)
  | unexpectedVote (id : Digest)
  | certificateRequiresQuorum
  | headerRequiresQuorum (id : Digest)
  | tooOld (id : Digest) (round : ℕ)
deriving DecidableEq, Repr

/-- A header. `account_counts` is a `HashMap`; it is only compared and hashed in the
    order of its keys, so it is held sorted. -/
structure Header (PublicKey Digest Signature : Type) [LinearOrder Digest] where
  author : PublicKey
  round : ℕ
  payload : OrdMap Digest ℕ
  parents : OrdSet Digest
  accountCounts : OrdMap ℕ ℕ
  avgQueueDelayMs : ℕ
  createdAt : ℕ
  id : Digest
  signature : Signature
deriving DecidableEq

structure Vote (PublicKey Digest Signature : Type) where
  id : Digest
  round : ℕ
  origin : PublicKey
  author : PublicKey
  signature : Signature
deriving DecidableEq

structure Certificate (PublicKey Digest Signature : Type) [LinearOrder Digest] where
  header : Header PublicKey Digest Signature
  votes : List (PublicKey × Signature)
deriving DecidableEq

variable {PublicKey Digest Signature : Type} [LinearOrder PublicKey] [LinearOrder Digest]

/-- `ensure!(cond, e)`. -/
def ensure (cond : Bool) (e : DagError PublicKey Digest) :
    Except (DagError PublicKey Digest) Unit :=
  if cond then .ok () else .error e

section Ensure

omit [LinearOrder PublicKey] [LinearOrder Digest]

theorem ensure_eq_ok {cond : Bool} {e : DagError PublicKey Digest} {u : Unit} :
    ensure cond e = .ok u ↔ cond = true := by
  cases cond <;> simp [ensure]

theorem ensure_ne_error {cond : Bool} {e e' : DagError PublicKey Digest} (h : cond = true) :
    ensure cond e ≠ .error e' := by
  subst h
  simp [ensure]

/-- What is sequenced after `ensure!` runs if the condition holds. -/
theorem ensure_bind_eq_ok {α : Type} {cond : Bool} {e : DagError PublicKey Digest}
    {f : Unit → Except (DagError PublicKey Digest) α} {a : α} :
    (ensure cond e >>= f) = .ok a ↔ cond = true ∧ f () = .ok a := by
  cases cond <;> simp [ensure, bind, Except.bind]

end Ensure

namespace Header

section Digest

variable [AsBytes PublicKey] [AsBytes Digest]

/-- The bytes `Header::digest` feeds to the hasher. -/
def preimage (h : Header PublicKey Digest Signature) : Bytes :=
  asRef h.author ++ leBytes 8 h.round ++
    h.payload.entries.flatMap (fun x => asRef x.1 ++ leBytes 4 x.2) ++
    h.accountCounts.entries.flatMap (fun x => leBytes 4 x.1 ++ leBytes 2 x.2) ++
    leBytes 8 h.avgQueueDelayMs ++ h.parents.toList.flatMap asRef ++ leBytes 8 h.createdAt

def digest [Sha512 Digest] (h : Header PublicKey Digest Signature) : Digest := sha512 h.preimage

end Digest

def verify [AsBytes PublicKey] [AsBytes Digest] [Sha512 Digest]
    [Ed25519 PublicKey Digest Signature] (h : Header PublicKey Digest Signature)
    (committee : Committee PublicKey) :
    Except (DagError PublicKey Digest) Unit := do
  -- Ensure the header id is well formed.
  ensure (h.digest = h.id) .invalidHeaderId
  -- Ensure the authority has voting rights.
  ensure (0 < committee.stake h.author) (.unknownAuthority h.author)
  -- Ensure all worker ids are correct.
  ensure (h.payload.entries.all fun x => committee.hasWorker h.author x.2) (.malformedHeader h.id)
  -- Check the signature.
  ensure (Ed25519.verify h.signature h.id h.author) .invalidSignature

theorem verify_eq_ok [AsBytes PublicKey] [AsBytes Digest] [Sha512 Digest]
    [Ed25519 PublicKey Digest Signature] {h : Header PublicKey Digest Signature}
    {committee : Committee PublicKey} {u : Unit} :
    h.verify committee = .ok u ↔ h.digest = h.id ∧ 0 < committee.stake h.author ∧
      (h.payload.entries.all fun x => committee.hasWorker h.author x.2) = true ∧
      Ed25519.verify h.signature h.id h.author = true := by
  simp only [verify, ensure_bind_eq_ok, ensure_eq_ok, decide_eq_true_eq]

/-- `Header::default`. -/
instance [Inhabited PublicKey] [Inhabited Digest] [Inhabited Signature] :
    Inhabited (Header PublicKey Digest Signature) :=
  ⟨⟨default, 0, ∅, ∅, ∅, 0, 0, default, default⟩⟩

end Header

section Vote

variable [AsBytes PublicKey] [AsBytes Digest]

/-- The bytes `Vote::digest` and `Certificate::digest` feed to the hasher. -/
def voteBytes (id : Digest) (round : ℕ) (origin : PublicKey) : Bytes :=
  asRef id ++ leBytes 8 round ++ asRef origin

namespace Vote

variable [Sha512 Digest]

def digest (v : Vote PublicKey Digest Signature) : Digest :=
  sha512 (voteBytes v.id v.round v.origin)

variable [Ed25519 PublicKey Digest Signature]

/-- `Vote::new`: the vote of `author` for a header. -/
def new (header : Header PublicKey Digest Signature) (author : PublicKey) :
    Vote PublicKey Digest Signature where
  id := header.id
  round := header.round
  origin := header.author
  author := author
  signature := Ed25519.sign (sha512 (voteBytes header.id header.round header.author) : Digest) author

def verify (v : Vote PublicKey Digest Signature) (committee : Committee PublicKey) :
    Except (DagError PublicKey Digest) Unit := do
  -- Ensure the authority has voting rights.
  ensure (0 < committee.stake v.author) (.unknownAuthority v.author)
  -- Check the signature.
  ensure (Ed25519.verify v.signature v.digest v.author) .invalidSignature

omit [LinearOrder Digest] in
theorem verify_eq_ok {v : Vote PublicKey Digest Signature} {committee : Committee PublicKey}
    {u : Unit} : v.verify committee = .ok u ↔
      0 < committee.stake v.author ∧ Ed25519.verify v.signature v.digest v.author = true := by
  rw [verify, ensure_bind_eq_ok, ensure_eq_ok, decide_eq_true_eq]

end Vote

end Vote

namespace Certificate

def round (c : Certificate PublicKey Digest Signature) : ℕ := c.header.round

def origin (c : Certificate PublicKey Digest Signature) : PublicKey := c.header.author

/-- `PartialEq for Certificate`: the header id, the round and the origin only. -/
def same (c c' : Certificate PublicKey Digest Signature) : Bool :=
  c.header.id = c'.header.id ∧ c.round = c'.round ∧ c.origin = c'.origin

section Genesis

variable [Inhabited PublicKey] [Inhabited Digest] [Inhabited Signature]

def genesis (committee : Committee PublicKey) : List (Certificate PublicKey Digest Signature) :=
  committee.keys.map fun name => ⟨{ (default : Header PublicKey Digest Signature) with
    author := name }, []⟩

theorem mem_genesis {committee : Committee PublicKey}
    {c : Certificate PublicKey Digest Signature} :
    c ∈ genesis committee ↔ ∃ name ∈ committee.keys,
      c = ⟨{ (default : Header PublicKey Digest Signature) with author := name }, []⟩ := by
  simp [genesis, eq_comm]

theorem round_genesis {committee : Committee PublicKey}
    {c : Certificate PublicKey Digest Signature} (h : c ∈ genesis committee) : c.round = 0 := by
  obtain ⟨name, -, rfl⟩ := mem_genesis.mp h
  rfl

theorem parents_genesis {committee : Committee PublicKey}
    {c : Certificate PublicKey Digest Signature} (h : c ∈ genesis committee) :
    c.header.parents = ∅ := by
  obtain ⟨name, -, rfl⟩ := mem_genesis.mp h
  rfl

theorem nodup_origin_genesis (committee : Committee PublicKey) :
    ((genesis committee : List (Certificate PublicKey Digest Signature)).map origin).Nodup := by
  have h : (genesis committee : List (Certificate PublicKey Digest Signature)).map origin =
      committee.keys := by
    simp [genesis, origin, Function.comp_def]
  rw [h]
  exact committee.authorities.nodup_keys

end Genesis

variable [AsBytes PublicKey] [AsBytes Digest] [Sha512 Digest]

def digest (c : Certificate PublicKey Digest Signature) : Digest :=
  sha512 (voteBytes c.header.id c.round c.origin)

/-- The loop of `verify` over the votes: every voter is new and has stake. Returns the
    weight of the votes. -/
def checkVotes (committee : Committee PublicKey) :
    List (PublicKey × Signature) → List PublicKey → ℕ →
      Except (DagError PublicKey Digest) ℕ
  | [], _, weight => .ok weight
  | (name, _) :: votes, used, weight => do
      ensure (name ∉ used) (.authorityReuse name)
      ensure (0 < committee.stake name) (.unknownAuthority name)
      checkVotes committee votes (name :: used) (u32 (weight + committee.stake name))

variable [Inhabited PublicKey] [Inhabited Digest] [Inhabited Signature]
  [Ed25519 PublicKey Digest Signature]

def verify (c : Certificate PublicKey Digest Signature) (committee : Committee PublicKey) :
    Except (DagError PublicKey Digest) Unit := do
  -- Genesis certificates are always valid.
  if (genesis committee).any (·.same c) then
    .ok ()
  else
    -- Check the embedded header.
    c.header.verify committee
    -- Ensure the certificate has a quorum.
    let weight ← checkVotes committee c.votes [] 0
    ensure (committee.quorumThreshold ≤ weight) .certificateRequiresQuorum
    -- Check the signatures.
    ensure (Ed25519.verifyBatch c.digest c.votes) .invalidSignature

omit [AsBytes PublicKey] [AsBytes Digest] [Sha512 Digest] [Inhabited PublicKey] [Inhabited Digest]
  [Inhabited Signature] [Ed25519 PublicKey Digest Signature] in
theorem same_iff {c c' : Certificate PublicKey Digest Signature} :
    c.same c' = true ↔ c.header.id = c'.header.id ∧ c.round = c'.round ∧ c.origin = c'.origin := by
  simp [same]

omit [AsBytes PublicKey] [AsBytes Digest] [Sha512 Digest] [Ed25519 PublicKey Digest Signature] in
/-- A certificate that passes for a genesis certificate is of round 0. -/
theorem round_of_same_genesis {c : Certificate PublicKey Digest Signature}
    {committee : Committee PublicKey} (h : (genesis committee).any (·.same c) = true) :
    c.round = 0 := by
  obtain ⟨g, hg, hs⟩ := List.any_eq_true.mp h
  rw [← (same_iff.mp hs).2.1]
  exact round_genesis hg

/-- What a certificate that is not taken for a genesis certificate goes through. -/
theorem verify_eq_ok {c : Certificate PublicKey Digest Signature}
    {committee : Committee PublicKey} {u : Unit}
    (hg : (genesis committee).any (·.same c) = false) :
    c.verify committee = .ok u ↔ c.header.verify committee = .ok () ∧
      ∃ weight, (checkVotes committee c.votes [] 0 : Except (DagError PublicKey Digest) ℕ) =
        .ok weight ∧ committee.quorumThreshold ≤ weight ∧
          Ed25519.verifyBatch c.digest c.votes = true := by
  unfold verify
  rw [hg]
  simp only [Bool.false_eq_true, if_false]
  cases hh : c.header.verify committee with
  | error e => simp [bind, Except.bind]
  | ok u' =>
      cases hw : (checkVotes committee c.votes [] 0 : Except (DagError PublicKey Digest) ℕ) with
      | error e => simp [bind, Except.bind]
      | ok weight =>
          simp only [bind, Except.bind, true_and, Except.ok.injEq, exists_eq_left']
          exact (ensure_bind_eq_ok (f := fun _ => ensure (Ed25519.verifyBatch c.digest c.votes)
            .invalidSignature)).trans (by rw [ensure_eq_ok, decide_eq_true_eq])

end Certificate

end DagBft
