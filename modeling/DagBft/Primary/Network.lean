/-
  The primaries of a committee together: honest ones that run `Core`, in any order of steps,
  and byzantine ones that send whatever they want.

  The network is the adversary. It loses, repeats and reorders messages and makes up new
  ones; it cannot make an honest authority sign. A step is one event at one honest primary,
  and a message may carry every signature that has been made so far (`Setting.Received`).

  `NodeInv` puts the invariants of one `Core` together, `nodeInv_of_run` carries them over
  the steps of all of them, in every run. Of every certificate that verifies it follows that
  enough honest primaries hold its header, parents and batches (`certified_available`).

  `Core` does not check the round of what a waiter gives back, and may vote twice for an author
  and a round that it has garbage collected in the meantime. In the runs where this does not
  happen (`Setting.Fresh`) a certificate is the only one of its author and round
  (`certificates_agree`), and its parents are certified in turn, by different authors with a
  quorum of the stake (`certified_parents`).
-/
import DagBft.Primary.Evidence

namespace DagBft.Primaries

open Std.Do DagBft.Core

set_option mvcgen.warning false

variable {PublicKey Digest Signature : Type} [LinearOrder PublicKey] [LinearOrder Digest]

/-- The committee, the options that all honest primaries run with, and who is honest. -/
structure Setting (PublicKey : Type) [LinearOrder PublicKey] where
  committee : Committee PublicKey
  gcDepth : ℕ
  baselineMode : Bool
  honest : Finset PublicKey

namespace Setting

variable (w : Setting PublicKey)

def core (name : PublicKey) : Core.Params PublicKey :=
  ⟨name, w.committee, w.gcDepth, w.baselineMode⟩

def byzantine : Finset PublicKey := w.committee.keys.toFinset \ w.honest

end Setting

/-- The state of every primary. Those of the byzantine ones mean nothing. -/
abbrev States (PublicKey Digest Signature : Type) [LinearOrder PublicKey] [LinearOrder Digest] :=
  PublicKey → Core.State PublicKey Digest Signature

variable [AsBytes PublicKey] [AsBytes Digest] [Sha512 Digest]
  [Inhabited PublicKey] [Inhabited Digest] [Inhabited Signature]
  [Ed25519 PublicKey Digest Signature]

/-- The states after a step of one primary. -/
def States.after (cores : States PublicKey Digest Signature) (w : Setting PublicKey)
    (name : PublicKey) (e : Event PublicKey Digest Signature) (round : ℕ) :
    States PublicKey Digest Signature :=
  Function.update cores name (Core.step (w.core name) (cores name) e round)

/-! ## Signatures and messages -/

/-- What a primary has signed so far: the ids of its headers, and its votes. -/
def Signs (s : Core.State PublicKey Digest Signature) (d : Digest) : Prop :=
  (∃ h, .broadcastHeader h ∈ s.outputs ∧ h.id = d) ∨
    ∃ v : Vote PublicKey Digest Signature, .createdVote v ∈ s.outputs ∧ v.digest = d

/-- Two headers agree but for their signatures. -/
def SameContent (h h' : Header PublicKey Digest Signature) : Prop :=
  { h with signature := h'.signature } = h'

namespace Setting

variable (w : Setting PublicKey) (known : Header PublicKey Digest Signature → Prop)
  (cores : States PublicKey Digest Signature)

/-- Honest authorities sign what their primaries sign. -/
def Signed (name : PublicKey) (d : Digest) : Prop := name ∈ w.honest → Signs (cores name) d

/-- A signature that verifies has been made. -/
def Unforged (signature : Signature) (d : Digest) (name : PublicKey) : Prop :=
  Ed25519.verify signature d name = true → w.Signed cores name d

/-- What a primary may be given: headers that are in play, with signatures that are not
    forged, and of its own proposer the header that comes next. -/
def Received (name : PublicKey) : Event PublicKey Digest Signature → Prop
  | .ownHeader h => known h ∧ ProposedNext (w.core name) (cores name) h
  | .primaryHeader h =>
      (h.verify w.committee = .ok () → known h) ∧ w.Unforged cores h.signature h.id h.author
  | .primaryVote v =>
      (v.verify w.committee = .ok () →
        ∃ h, known h ∧ v.id = h.id ∧ v.round = h.round ∧ v.origin = h.author) ∧
      w.Unforged cores v.signature v.digest v.author
  | .primaryCertificate c =>
      (c.verify w.committee = .ok () → known c.header) ∧
      w.Unforged cores c.header.signature c.header.id c.header.author ∧
      ∀ x ∈ c.votes, w.Unforged cores x.2 c.digest x.1
  | _ => True

/-- Nothing comes back from a waiter of this primary that is of a round that it has garbage
    collected, its own headers apart. -/
def Fresh (name : PublicKey) (s : Core.State PublicKey Digest Signature)
    (e : Event PublicKey Digest Signature) : Prop :=
  LoopbackFresh (w.core name) s e

/-- The states that the primaries go through: any honest one takes the next step. The condition
    `C` is on the events, in the state where they come; with `True` it is every run. -/
inductive Run
    (C : PublicKey → Core.State PublicKey Digest Signature →
      Event PublicKey Digest Signature → Prop) : States PublicKey Digest Signature → Prop
  | initial : Run C fun _ => Core.State.initial
  | step {cores : States PublicKey Digest Signature} (run : Run C cores) (name : PublicKey)
      (honest : name ∈ w.honest) (e : Event PublicKey Digest Signature) (round : ℕ)
      (enabled : Enabled (cores name) e round) (received : w.Received known cores name e)
      (cond : C name (cores name) e) : Run C (cores.after w name e round)

/-- What is assumed: less than a third of the stake is byzantine, signatures verify for what
    they sign, and the hashes of the headers in play do not collide. -/
structure Sound : Prop where
  stake : ∀ name ∈ w.honest, 0 < w.committee.stake name
  total : w.committee.total < 2 ^ 31
  minority : 3 * w.committee.stakeOf w.byzantine < w.committee.total
  sign : ∀ name ∈ w.honest, ∀ d d' : Digest,
    Ed25519.verify (Ed25519.sign d name : Signature) d' name = true ↔ d = d'
  batch : ∀ (d : Digest) (votes : List (PublicKey × Signature)),
    Ed25519.verifyBatch d votes = true ↔ ∀ v ∈ votes, Ed25519.verify v.2 d v.1 = true
  start : known default
  genesis : ∀ c ∈ Certificate.genesis w.committee, known c.header
  apart : Apart known
  votes : ∀ h h', known h → known h' → voteDigest h = voteDigest h' →
    h.id = h'.id ∧ h.round = h'.round ∧ h.author = h'.author
  ids : ∀ h h', known h → known h' → h.digest = h.id → h'.digest = h'.id → h.id = h'.id →
    SameContent h h'
  zero : ∀ h, known h → h.digest ≠ default

end Setting

variable {w : Setting PublicKey} {known : Header PublicKey Digest Signature → Prop}
  {C : PublicKey → Core.State PublicKey Digest Signature →
    Event PublicKey Digest Signature → Prop}
  {cores cores' : States PublicKey Digest Signature}
  {name : PublicKey} {c c' : Certificate PublicKey Digest Signature}
  {h h' : Header PublicKey Digest Signature}

section Content

variable (hs : SameContent h h')

include hs

omit [LinearOrder PublicKey] [AsBytes PublicKey] [AsBytes Digest] [Sha512 Digest]
  [Inhabited PublicKey] [Inhabited Digest] [Inhabited Signature]
  [Ed25519 PublicKey Digest Signature] in
theorem SameContent.round : h.round = h'.round := by
  have key := congrArg Header.round hs
  exact key

omit [LinearOrder PublicKey] [AsBytes PublicKey] [AsBytes Digest] [Sha512 Digest]
  [Inhabited PublicKey] [Inhabited Digest] [Inhabited Signature]
  [Ed25519 PublicKey Digest Signature] in
theorem SameContent.author : h.author = h'.author := by
  have key := congrArg Header.author hs
  exact key

omit [LinearOrder PublicKey] [AsBytes PublicKey] [AsBytes Digest] [Sha512 Digest]
  [Inhabited PublicKey] [Inhabited Digest] [Inhabited Signature]
  [Ed25519 PublicKey Digest Signature] in
theorem SameContent.id : h.id = h'.id := by
  have key := congrArg Header.id hs
  exact key

omit [LinearOrder PublicKey] [AsBytes PublicKey] [AsBytes Digest] [Sha512 Digest]
  [Inhabited PublicKey] [Inhabited Digest] [Inhabited Signature]
  [Ed25519 PublicKey Digest Signature] in
theorem SameContent.parents : h.parents = h'.parents := by
  have key := congrArg Header.parents hs
  exact key

omit [LinearOrder PublicKey] [AsBytes PublicKey] [AsBytes Digest] [Sha512 Digest]
  [Inhabited PublicKey] [Inhabited Digest] [Inhabited Signature]
  [Ed25519 PublicKey Digest Signature] in
theorem SameContent.payload : h.payload = h'.payload := by
  have key := congrArg Header.payload hs
  exact key

end Content

/-! ## Quorums -/

namespace Setting.Sound

variable (hw : w.Sound known)

include hw

theorem byzantine_lt_quorum : w.committee.stakeOf w.byzantine < w.committee.quorumThreshold := by
  have hm := hw.minority
  rw [Committee.quorumThreshold_eq (by have := hw.total; omega)]
  omega

/-- What a quorum holds beyond the byzantine authorities reaches availability. -/
theorem validity_le_honest (s : Finset PublicKey)
    (hs : w.committee.quorumThreshold ≤ w.committee.stakeOf s)
    (hmem : ∀ name ∈ s, name ∈ w.committee.keys) :
    w.committee.validityThreshold ≤ w.committee.stakeOf (s ∩ w.honest) := by
  refine Committee.validityThreshold_le_inter hw.total hw.minority hs fun name hname => ?_
  obtain ⟨hin, hnot⟩ := Finset.mem_sdiff.mp hname
  exact Finset.mem_sdiff.mpr ⟨List.mem_toFinset.mpr (hmem name hin), hnot⟩

/-- Two quorums share an honest authority. -/
theorem exists_honest_of_quorums (s t : Finset PublicKey)
    (hs : w.committee.quorumThreshold ≤ w.committee.stakeOf s)
    (ht : w.committee.quorumThreshold ≤ w.committee.stakeOf t)
    (hmem : ∀ name ∈ s, name ∈ w.committee.keys) :
    ∃ name ∈ w.honest, name ∈ s ∧ name ∈ t := by
  have hm := hw.minority
  have htotal := hw.total
  have hhonest := hw.validity_le_honest s hs hmem
  obtain ⟨name, hname, hin⟩ := Committee.stakeOf_inter (c := w.committee) (s := s ∩ w.honest)
    (t := t) (by
      rw [Committee.quorumThreshold_eq (by omega)] at ht
      rw [Committee.validityThreshold_eq (by omega)] at hhonest
      omega)
  obtain ⟨hmems, hh⟩ := Finset.mem_inter.mp hname
  exact ⟨name, hh, hmems, hin⟩

/-- What `Primary/Assembly` assumes of one primary. -/
theorem environment (hname : name ∈ w.honest) : Environment (w.core name) known w.byzantine where
  separated :=
    { genesis := hw.genesis
      certificates := fun h h' hk hk' hd => (hw.votes h h' hk hk' hd).2
      headers := hw.apart }
  stake := hw.stake name hname
  total := hw.total.trans (by norm_num)
  minority := hw.byzantine_lt_quorum
  sign d := (hw.sign name hname d d).mpr rfl
  batch d votes := (hw.batch d votes).mpr

end Setting.Sound

/-! ## One primary among the others -/

/-- A vote for a later round than the current one is refused. -/
def lateVote (s : Core.State PublicKey Digest Signature) : Event PublicKey Digest Signature :=
  .primaryVote
    { id := default, round := s.currentHeader.round + 1, origin := default, author := default
      signature := default }

/-- What one primary may rely on. A message that it does not accept counts as a late vote. -/
def Setting.Kept (w : Setting PublicKey) (known : Header PublicKey Digest Signature → Prop)
    (C : PublicKey → Core.State PublicKey Digest Signature →
      Event PublicKey Digest Signature → Prop)
    (name : PublicKey) (s : Core.State PublicKey Digest Signature)
    (e : Event PublicKey Digest Signature) : Prop :=
  Promised (w.core name) known w.byzantine s e ∧ (e = lateVote s ∨ C name s e)

/-- The invariant of one primary, after the events `events`. -/
structure NodeInv (w : Setting PublicKey) (known : Header PublicKey Digest Signature → Prop)
    (C : PublicKey → Core.State PublicKey Digest Signature →
      Event PublicKey Digest Signature → Prop)
    (cores : States PublicKey Digest Signature) (name : PublicKey)
    (events : List (Event PublicKey Digest Signature))
    (current : Header PublicKey Digest Signature) : Prop where
  run : Core.Run (w.core name) (w.Kept known C name) events (cores name)
  evidence : EvidenceInv (w.core name) known (w.Signed cores) (fun h => .ownHeader h ∈ events)
    current (cores name)
  proposed : ∀ h, .ownHeader h ∈ events → known h ∧ h.digest = h.id ∧ h.author = name
  sent : ∀ h, .ownHeader h ∈ events → .broadcastHeader h ∈ (cores name).outputs
  rounds : ∀ h, .ownHeader h ∈ events → h.round ≤ current.round
  once : ProposesOnce events
  unforged : Core.Unforged (w.core name) events

variable {events : List (Event PublicKey Digest Signature)}
  {current : Header PublicKey Digest Signature}

/-- A vote digest is signed by voting only. -/
theorem NodeInv.voted_of_signs (hw : w.Sound known)
    (hn : NodeInv w known C cores name events current) (hk : known h)
    (hs : Signs (cores name) (voteDigest h)) :
    ∃ h', .createdVote (Vote.new h' name) ∈ (cores name).outputs ∧
      Examined (w.core name) known (w.Signed cores) (cores name).outputs (cores name).store h' ∧
      h'.id = h.id ∧ h'.round = h.round ∧ h'.author = h.author := by
  rcases hs with ⟨h', hsent, hid⟩ | ⟨v, hv, hdigest⟩
  · exact absurd hid (hw.apart h' h (hn.proposed h' (hn.evidence.outputs _ hsent)).1 hk)
  · obtain ⟨h', rfl, hexamined⟩ := hn.evidence.outputs _ hv
    exact ⟨h', hv, hexamined, hw.votes h' h hexamined.known hk hdigest⟩

/-- The id of a header is signed by its proposer only. -/
theorem NodeInv.proposed_of_signs (hw : w.Sound known)
    (hn : NodeInv w known C cores name events current) (hk : known h) (hid : h.digest = h.id)
    (hs : Signs (cores name) h.id) : ∃ h', .ownHeader h' ∈ events ∧ SameContent h' h := by
  rcases hs with ⟨h', hsent, heq⟩ | ⟨v, hv, hdigest⟩
  · have hown := hn.evidence.outputs _ hsent
    obtain ⟨hk', hid', -⟩ := hn.proposed h' hown
    exact ⟨h', hown, hw.ids h' h hk' hk hid' hid heq⟩
  · obtain ⟨h', rfl, hexamined⟩ := hn.evidence.outputs _ hv
    exact absurd hdigest.symm (hw.apart h h' hk hexamined.known)

/-- The id of `Header::default` is signed by nobody. -/
theorem NodeInv.not_signs_default (hw : w.Sound known)
    (hn : NodeInv w known C cores name events current) :
    ¬ Signs (cores name) (default : Digest) := by
  rintro (⟨h', hsent, heq⟩ | ⟨v, hv, hdigest⟩)
  · obtain ⟨hk', hid', -⟩ := hn.proposed h' (hn.evidence.outputs _ hsent)
    exact hw.zero h' hk' (hid'.trans heq)
  · obtain ⟨h', rfl, hexamined⟩ := hn.evidence.outputs _ hv
    exact hw.apart default h' hw.start hexamined.known hdigest.symm

/-- A header in the name of this primary that verifies is one of its own. -/
theorem NodeInv.signed_of_unforged (hw : w.Sound known) (hname : name ∈ w.honest)
    (hn : NodeInv w known C cores name events current) (hk : known h) (hid : h.digest = h.id)
    (hu : w.Unforged cores h.signature h.id h.author) :
    Core.Signed (w.core name) (fun h' => .ownHeader h' ∈ events) h := by
  intro hauthor hverify
  have hauthor : h.author = name := hauthor
  have hsigns : Signs (cores name) h.id := by
    have key := hu (hauthor ▸ hverify)
    rw [hauthor] at key
    exact key hname
  obtain ⟨h', hown, hsame⟩ := hn.proposed_of_signs hw hk hid hsigns
  exact ⟨h', hown, hsame.id, hsame.round⟩

/-- The same for the header of a certificate, which is not looked into if the certificate
    passes for a genesis certificate. -/
theorem NodeInv.signed_of_certificate (hw : w.Sound known) (hname : name ∈ w.honest)
    (hn : NodeInv w known C cores name events current) (hk : known c.header)
    (hv : c.verify w.committee = .ok ())
    (hu : w.Unforged cores c.header.signature c.header.id c.header.author) :
    Core.Signed (w.core name) (fun h' => .ownHeader h' ∈ events) c.header := by
  cases hgen : (Certificate.genesis w.committee).any (·.same c) with
  | true =>
      obtain ⟨g, hg, hsame⟩ := List.any_eq_true.mp hgen
      obtain ⟨member, -, rfl⟩ := Certificate.mem_genesis.mp hg
      have hdefault : c.header.id = default := (Certificate.same_iff.mp hsame).1.symm
      intro hauthor hverify
      have hauthor : c.header.author = name := hauthor
      have key := hu (hauthor ▸ hverify)
      rw [hauthor, hdefault] at key
      exact absurd (key hname) (hn.not_signs_default hw)
  | false =>
      have hheader := ((Certificate.verify_eq_ok hgen).mp hv).1
      exact hn.signed_of_unforged hw hname hk (Header.verify_eq_ok.mp hheader).1 hu

/-! ## Messages that are refused -/

/-- A message that is refused leads to a clean-up only. -/
theorem step_of_refused {p : Core.Params PublicKey} {s : Core.State PublicKey Digest Signature}
    {e : Event PublicKey Digest Signature} (round : ℕ)
    (h : ⦃fun s' => ⌜s' = s⌝⦄ handle p e
      ⦃post⟨fun _ _ => ⌜False⌝, fun fault s' => ⌜(∃ d, fault = .dag d) ∧ s' = s⌝⟩⦄)
    (hcore : e.ofCore = true) : Core.step p s e round = s.cleanup p.gcDepth round := by
  have key := run_of_triple h s rfl
  unfold Core.step
  generalize (handle p e).run.run s = x at key ⊢
  obtain ⟨result, s'⟩ := x
  cases result with
  | ok a => exact key.elim
  | error fault =>
      obtain ⟨⟨d, rfl⟩, rfl⟩ := key
      simp only [hcore, if_true]

theorem step_lateVote (p : Core.Params PublicKey) (s : Core.State PublicKey Digest Signature)
    (round : ℕ) : Core.step p s (lateVote s) round = s.cleanup p.gcDepth round := by
  refine step_of_refused round ?_ rfl
  mvcgen [lateVote, handle, sanitizeVote, orReturn]
  case vc1 =>
    rename_i s' hs _ hround _ _ _ _
    have hlate := of_decide_eq_true (ensure_eq_ok.mp hround)
    rw [hs] at hlate
    omega
  all_goals exact ⟨⟨_, rfl⟩, ‹_›⟩

theorem step_header_of_not_verify {p : Core.Params PublicKey}
    {s : Core.State PublicKey Digest Signature} (round : ℕ)
    (hv : h.verify p.committee ≠ .ok ()) :
    Core.step p s (.primaryHeader h) round = s.cleanup p.gcDepth round := by
  refine step_of_refused round ?_ rfl
  mvcgen [handle, sanitizeHeader, orReturn]
  all_goals exact ⟨⟨_, rfl⟩, ‹_›⟩

theorem step_certificate_of_not_verify {p : Core.Params PublicKey}
    {s : Core.State PublicKey Digest Signature} (round : ℕ)
    (hv : c.verify p.committee ≠ .ok ()) :
    Core.step p s (.primaryCertificate c) round = s.cleanup p.gcDepth round := by
  refine step_of_refused round ?_ rfl
  mvcgen [handle, sanitizeCertificate, orReturn]
  all_goals exact ⟨⟨_, rfl⟩, ‹_›⟩

/-! ## One step -/

/-- A message that is not verified does not get past `sanitize_header` or
    `sanitize_certificate`. -/
def Verifies (committee : Committee PublicKey) : Event PublicKey Digest Signature → Prop
  | .primaryHeader h => h.verify committee = .ok ()
  | .primaryCertificate c => c.verify committee = .ok ()
  | _ => True

/-- What a message is worth to one primary. -/
theorem NodeInv.kept (hw : w.Sound known)
    (hall : ∀ other ∈ w.honest, ∃ events current, NodeInv w known C cores other events current)
    (hname : name ∈ w.honest) (hn : NodeInv w known C cores name events current)
    {e : Event PublicKey Digest Signature} (hv : Verifies w.committee e)
    (hrec : w.Received known cores name e) (hcond : C name (cores name) e) :
    w.Kept known C name (cores name) e ∧
      EventOk (w.core name) (fun h => .ownHeader h ∈ events ++ [e]) e := by
  have hsent : ∀ {h : Header PublicKey Digest Signature},
      Core.Signed (w.core name) (fun h' => .ownHeader h' ∈ events) h →
        Core.Signed (w.core name) (fun h' => .broadcastHeader h' ∈ (cores name).outputs) h ∧
        Core.Signed (w.core name) (fun h' => .ownHeader h' ∈ events ++ [e]) h := by
    intro h hs
    refine ⟨fun ha hsig => ?_, fun ha hsig => ?_⟩
    · obtain ⟨h', hown, hsame⟩ := hs ha hsig
      exact ⟨h', hn.sent h' hown, hsame⟩
    · obtain ⟨h', hown, hsame⟩ := hs ha hsig
      exact ⟨h', List.mem_append_left _ hown, hsame⟩
  cases e with
  | primaryHeader h =>
      obtain ⟨hs, hs'⟩ := hsent (hn.signed_of_unforged hw hname (hrec.1 hv)
        (Header.verify_eq_ok.mp hv).1 hrec.2)
      exact ⟨⟨⟨hrec.1 hv, hs⟩, Or.inr hcond⟩, hs'⟩
  | primaryCertificate c =>
      obtain ⟨hs, hs'⟩ := hsent (hn.signed_of_certificate hw hname (hrec.1 hv) hv hrec.2.1)
      exact ⟨⟨⟨hrec.1 hv, hs⟩, Or.inr hcond⟩, hs'⟩
  | primaryVote v =>
      refine ⟨⟨fun h0 hverify => ?_, Or.inr hcond⟩, trivial⟩
      obtain ⟨hstake, hsigned⟩ := Vote.verify_eq_ok.mp hverify
      by_contra hnot
      have hhonest : v.author ∈ w.honest := by
        by_contra hout
        exact hnot (Finset.mem_sdiff.mpr
          ⟨List.mem_toFinset.mpr (Certificate.mem_keys_of_stake hstake), hout⟩)
      -- honest authorities do not vote in round 0
      obtain ⟨h, hk, hid, hround, horigin⟩ := hrec.1 hverify
      have hdigest : v.digest = voteDigest h := by
        unfold Vote.digest voteDigest
        rw [hid, hround, horigin]
      obtain ⟨events', current', hother⟩ := hall v.author hhonest
      have hsigns := hrec.2 hsigned hhonest
      rw [hdigest] at hsigns
      obtain ⟨h', -, hexamined, -, hround', -⟩ := hother.voted_of_signs hw hk hsigns
      exact hexamined.positive (by omega)
  | ownHeader h =>
      refine ⟨⟨hrec, Or.inr hcond⟩, List.mem_append_right _ (List.mem_singleton.mpr rfl), ?_⟩
      obtain ⟨q, ps, now, rfl, hq, -⟩ := hrec.2
      exact hq
  | loopbackHeader h => exact ⟨⟨trivial, Or.inr hcond⟩, trivial⟩
  | loopbackCertificate c => exact ⟨⟨trivial, Or.inr hcond⟩, trivial⟩
  | othersBatch digest worker counts => exact ⟨⟨trivial, Or.inr hcond⟩, trivial⟩

/-- A step does what a step that keeps the promises does. -/
theorem NodeInv.exists_kept (hw : w.Sound known)
    (hall : ∀ other ∈ w.honest, ∃ events current, NodeInv w known C cores other events current)
    (hname : name ∈ w.honest) (hn : NodeInv w known C cores name events current)
    {e : Event PublicKey Digest Signature} {round : ℕ} (hen : Enabled (cores name) e round)
    (hrec : w.Received known cores name e) (hcond : C name (cores name) e) :
    ∃ e', Core.step (w.core name) (cores name) e round =
        Core.step (w.core name) (cores name) e' round ∧
      Enabled (cores name) e' round ∧ w.Kept known C name (cores name) e' ∧
      EventOk (w.core name) (fun h => .ownHeader h ∈ events ++ [e']) e' ∧
      ∀ h, e' = .ownHeader h ↔ e = .ownHeader h := by
  by_cases hv : Verifies w.committee e
  · obtain ⟨hkept, hok⟩ := hn.kept hw hall hname hv hrec hcond
    exact ⟨e, rfl, hen, hkept, hok, fun _ => Iff.rfl⟩
  · -- nothing happens but for the clean-up, as on a late vote
    have hstep : Core.step (w.core name) (cores name) e round =
        (cores name).cleanup (w.core name).gcDepth round := by
      cases e with
      | primaryHeader h => exact step_header_of_not_verify round hv
      | primaryCertificate c => exact step_certificate_of_not_verify round hv
      | _ => exact absurd trivial hv
    refine ⟨lateVote (cores name), hstep.trans (step_lateVote _ _ _).symm,
      ⟨hen.1, hen.2.1, trivial⟩, ⟨fun h0 => absurd h0 (Nat.succ_ne_zero _), Or.inl rfl⟩,
      trivial, fun h => ⟨(fun he => by cases he), ?_⟩⟩
    rintro rfl
    exact absurd trivial hv

/-- What the invariant of `Primary/Evidence` needs to know of a message. -/
theorem Setting.Received.authentic {e : Event PublicKey Digest Signature}
    (hrec : w.Received known cores name e) :
    Authentic (w.core name) known (w.Signed cores) e := by
  cases e with
  | ownHeader h =>
      obtain ⟨hk, q, ps, now, rfl, -⟩ := hrec
      exact ⟨hk, rfl⟩
  | primaryHeader h => exact hrec.1
  | primaryVote v => exact fun hv => Or.inl (hrec.2 hv)
  | primaryCertificate c =>
      exact fun hv => ⟨hrec.1 hv, hv, fun x hx hsig => Or.inl (hrec.2.2 x hx hsig)⟩
  | loopbackHeader h => trivial
  | loopbackCertificate c => trivial
  | othersBatch digest worker counts => trivial

/-- Outputs are never taken back. -/
theorem outputs_step (p : Core.Params PublicKey) (s : Core.State PublicKey Digest Signature)
    (e : Event PublicKey Digest Signature) (round : ℕ) :
    s.outputs ⊆ (Core.step p s e round).outputs := by
  intro o ho
  refine step_of_handle (I := fun s' => o ∈ s'.outputs) (J := fun s' => o ∈ s'.outputs) p
    (inv_of_triple (keepsOutput_handle p o e) s ho) (fun _ => id) (fun s' hs' => ?_) (fun _ => id)
  rwa [State.cleanup_outputs]

/-- A header of our own is broadcast. -/
theorem broadcast_step (p : Core.Params PublicKey) (s : Core.State PublicKey Digest Signature)
    (h : Header PublicKey Digest Signature) (round : ℕ) :
    .broadcastHeader h ∈ (Core.step p s (.ownHeader h) round).outputs := by
  have hheader := keepsOutput_processHeader p (.broadcastHeader h) recursionDepth h
  have key : ⦃fun _ => ⌜True⌝⦄ handle p (.ownHeader h)
      ⦃post⟨fun _ s => ⌜.broadcastHeader h ∈ s.outputs⌝,
        fun _ s => ⌜.broadcastHeader h ∈ s.outputs⌝⟩⦄ := by
    unfold KeepsOutput at hheader
    mvcgen [handle, processOwnHeader, send, hheader]
    exact List.mem_append_right _ (List.mem_singleton.mpr rfl)
  refine step_of_handle (I := fun s' => .broadcastHeader h ∈ s'.outputs)
    (J := fun s' => .broadcastHeader h ∈ s'.outputs) p (inv_of_triple key s trivial)
    (fun _ => id) (fun s' hs' => ?_) (fun _ => id)
  rwa [State.cleanup_outputs]

omit [LinearOrder PublicKey] [Inhabited PublicKey] [Inhabited Digest] [Inhabited Signature]
  [Ed25519 PublicKey Digest Signature] in
theorem Signs.mono {s s' : Core.State PublicKey Digest Signature} {d : Digest} (hs : Signs s d)
    (hsub : s.outputs ⊆ s'.outputs) : Signs s' d :=
  Or.imp (fun hh => hh.imp fun _ hh' => ⟨hsub hh'.1, hh'.2⟩)
    (fun hv => hv.imp fun _ hv' => ⟨hsub hv'.1, hv'.2⟩) hs

theorem signed_after (e : Event PublicKey Digest Signature) (round : ℕ) (other : PublicKey)
    (d : Digest) (hs : w.Signed cores other d) : w.Signed (cores.after w name e round) other d := by
  intro hhonest
  by_cases ho : other = name
  · subst ho
    refine (hs hhonest).mono ?_
    rw [States.after, Function.update_self]
    exact outputs_step _ _ _ _
  · rw [States.after, Function.update_of_ne ho]
    exact hs hhonest

/-- A run under a condition is one under a weaker condition. -/
theorem run_of_imp {p : Core.Params PublicKey} {s : Core.State PublicKey Digest Signature}
    {C C' : Core.State PublicKey Digest Signature → Event PublicKey Digest Signature → Prop}
    (himp : ∀ s e, C s e → C' s e) (hrun : Core.Run p C events s) : Core.Run p C' events s := by
  induction hrun with
  | initial => exact Core.Run.initial
  | step run e round enabled cond ih => exact ih.step e round enabled (himp _ _ cond)

omit [AsBytes PublicKey] [AsBytes Digest] [Sha512 Digest] [Inhabited PublicKey] [Inhabited Digest]
  [Inhabited Signature] in
theorem eventOk_mono {p : Core.Params PublicKey}
    {own own' : Header PublicKey Digest Signature → Prop} (hown : ∀ h, own h → own' h)
    {e : Event PublicKey Digest Signature} (hok : EventOk p own e) : EventOk p own' e := by
  have hsigned : ∀ h, Core.Signed p own h → Core.Signed p own' h := by
    intro h hs ha hv
    obtain ⟨h', hh', hsame⟩ := hs ha hv
    exact ⟨h', hown h' hh', hsame⟩
  cases e with
  | ownHeader h => exact ⟨hown h hok.1, hok.2⟩
  | primaryHeader h => exact hsigned h hok
  | primaryCertificate c => exact hsigned c.header hok
  | _ => trivial

/-- A new header of our own is of a later round than the last one. -/
theorem NodeInv.lt_round (hn : NodeInv w known C cores name events current)
    (hrec : w.Received known cores name (.ownHeader h)) : current.round < h.round := by
  obtain ⟨-, q, ps, now, rfl, -, -, hround, -⟩ := hrec
  rwa [hn.evidence.header] at hround

/-- A primary that takes a step. -/
theorem NodeInv.step (hw : w.Sound known)
    (hall : ∀ other ∈ w.honest, ∃ events current, NodeInv w known C cores other events current)
    (hname : name ∈ w.honest) (hn : NodeInv w known C cores name events current)
    {e : Event PublicKey Digest Signature} {round : ℕ} (hen : Enabled (cores name) e round)
    (hrec : w.Received known cores name e) (hcond : C name (cores name) e) :
    ∃ events', NodeInv w known C (cores.after w name e round) name events'
      (currentAfter current e) := by
  obtain ⟨e', hsame, hen', hkept, hok, hiff⟩ := hn.exists_kept hw hall hname hen hrec hcond
  have hself : cores.after w name e round name = Core.step (w.core name) (cores name) e round :=
    Function.update_self ..
  have hrun : Core.Run (w.core name) (w.Kept known C name) (events ++ [e'])
      (cores.after w name e round name) := by
    rw [hself, hsame]
    exact hn.run.step e' round hen' hkept
  have hmem : ∀ h, .ownHeader h ∈ events ++ [e'] ↔ .ownHeader h ∈ events ∨ e = .ownHeader h := by
    intro h
    rw [List.mem_append, List.mem_singleton, eq_comm, hiff]
  have hafter : (fun h => .ownHeader h ∈ events ++ [e']) =
      ownAfter (fun h => .ownHeader h ∈ events) e := by
    funext h
    rw [hmem]
    cases e with
    | ownHeader h' => simp [ownAfter, eq_comm]
    | _ => simp [ownAfter]
  have hevidence : EvidenceInv (w.core name) known (w.Signed (cores.after w name e round))
      (fun h => .ownHeader h ∈ events ++ [e']) (currentAfter current e)
      (cores.after w name e round name) := by
    have key := Evident.step (w.core name) known (w.Signed cores) (fun h => .ownHeader h ∈ events)
      current hw.apart (fun d d' => (hw.sign name hname d d').mp) (Or.inr hn.evidence) hen
      hrec.authentic
    rw [hafter, hself]
    rcases key with ⟨c, hc, hnot⟩ | hev
    · -- what this primary assembles verifies
      rw [← hself] at hc
      exact absurd (verify_of_broadcast (hw.environment hname) (fun _ _ hk => hk.1) hrun hc) hnot
    · exact hev.mono fun other d => signed_after e round other d
  have hlt : ∀ h, e = .ownHeader h → current.round < h.round := by
    rintro h rfl
    exact hn.lt_round hrec
  refine ⟨events ++ [e'], hrun, hevidence, fun h hh => ?_, fun h hh => ?_, fun h hh => ?_,
    fun h h' hh hh' hround => ?_, fun e₀ he₀ => ?_⟩
  · rcases (hmem h).mp hh with hold | rfl
    · exact hn.proposed h hold
    · obtain ⟨hk, q, ps, now, rfl, hq, -⟩ := hrec
      exact ⟨hk, rfl, hq⟩
  · rw [hself]
    rcases (hmem h).mp hh with hold | rfl
    · exact outputs_step _ _ _ _ (hn.sent h hold)
    · exact broadcast_step _ _ _ _
  · rcases (hmem h).mp hh with hold | rfl
    · have hle := hn.rounds h hold
      cases e with
      | ownHeader h' => exact hle.trans (hlt h' rfl).le
      | _ => exact hle
    · exact le_rfl
  · rcases (hmem h).mp hh with hold | hnew <;> rcases (hmem h').mp hh' with hold' | hnew'
    · exact hn.once h h' hold hold' hround
    · have := hn.rounds h hold
      have := hlt h' hnew'
      omega
    · have := hn.rounds h' hold'
      have := hlt h hnew
      omega
    · rw [Event.ownHeader.inj (hnew.symm.trans hnew')]
  · rcases List.mem_append.mp he₀ with hold | hnew
    · exact eventOk_mono (fun h hh => List.mem_append_left _ hh) (hn.unforged e₀ hold)
    · rw [List.mem_singleton.mp hnew]
      exact hok

/-- A primary while another one takes a step. -/
theorem NodeInv.other {other : PublicKey} (hn : NodeInv w known C cores other events current)
    (hne : other ≠ name) (e : Event PublicKey Digest Signature) (round : ℕ) :
    NodeInv w known C (cores.after w name e round) other events current := by
  have hsame : cores.after w name e round other = cores other := Function.update_of_ne hne _ _
  refine ⟨?_, ?_, hn.proposed, ?_, hn.rounds, hn.once, hn.unforged⟩
  · rw [hsame]
    exact hn.run
  · rw [hsame]
    exact hn.evidence.mono fun name d => signed_after e round name d
  · rw [hsame]
    exact hn.sent

/-- The invariant holds of every honest primary, in every run of all of them. -/
theorem nodeInv_of_run (hw : w.Sound known) (hrun : w.Run known C cores) :
    ∀ name ∈ w.honest, ∃ events current, NodeInv w known C cores name events current := by
  induction hrun with
  | initial =>
      exact fun name _ => ⟨[], default, Core.Run.initial, EvidenceInv.initial hw.start, by simp,
        by simp, by simp, by simp [ProposesOnce], by simp [Core.Unforged]⟩
  | step run name honest e round enabled received cond ih =>
      intro other hother
      by_cases hne : other = name
      · subst hne
        obtain ⟨events, current, hn⟩ := ih other hother
        obtain ⟨events', hn'⟩ := hn.step hw ih honest enabled received cond
        exact ⟨events', _, hn'⟩
      · obtain ⟨events, current, hn⟩ := ih other hother
        exact ⟨events, current, hn.other hne e round⟩

/-! ## Certificates -/

/-- A certificate that passes `Certificate::verify`, whose signatures are not forged. -/
structure Setting.Valid (w : Setting PublicKey)
    (known : Header PublicKey Digest Signature → Prop)
    (cores : States PublicKey Digest Signature) (c : Certificate PublicKey Digest Signature) :
    Prop where
  known : known c.header
  verified : c.verify w.committee = .ok ()
  genuine : ∀ x ∈ c.votes, w.Unforged cores x.2 c.digest x.1

/-- It passes for a genesis certificate. -/
def Setting.PassesForGenesis (w : Setting PublicKey)
    (c : Certificate PublicKey Digest Signature) : Prop :=
  (Certificate.genesis w.committee).any (·.same c) = true

/-- What an honest primary accepts is valid. -/
theorem valid_of_accepted
    (ha : Accepted (w.core name) known (w.Signed cores) (cores name).outputs c) :
    w.Valid known cores c where
  known := ha.known
  verified := ha.verified
  genuine x hx hsig hhonest := by
    rcases ha.genuine x hx hsig with hsigned | ⟨hself, v, hv, hd⟩
    · exact hsigned hhonest
    · exact hself ▸ Or.inr ⟨v, hv, hd⟩

omit [AsBytes PublicKey] [AsBytes Digest] [Sha512 Digest]
  [Ed25519 PublicKey Digest Signature] in
theorem id_of_passesForGenesis (hgen : w.PassesForGenesis c) : c.header.id = default := by
  obtain ⟨g, hg, hsame⟩ := List.any_eq_true.mp hgen
  obtain ⟨member, -, rfl⟩ := Certificate.mem_genesis.mp hg
  exact (Certificate.same_iff.mp hsame).1.symm

/-- The genesis certificates are valid. -/
theorem valid_genesis (hw : w.Sound known) (hg : c ∈ Certificate.genesis w.committee) :
    w.Valid known cores c where
  known := hw.genesis c hg
  verified := by
    have hany : (Certificate.genesis w.committee).any (·.same c) = true :=
      List.any_eq_true.mpr ⟨c, hg, Certificate.same_iff.mpr ⟨rfl, rfl, rfl⟩⟩
    unfold Certificate.verify
    rw [if_pos hany]
  genuine x hx := by
    obtain ⟨member, -, rfl⟩ := Certificate.mem_genesis.mp hg
    cases hx

section Certified

variable (hw : w.Sound known) (hrun : w.Run known C cores)

include hw hrun

/-- The voters of a certificate: a quorum, of which the honest ones have examined the header. -/
theorem voters (hc : w.Valid known cores c) (hgen : ¬ w.PassesForGenesis c) :
    c.header.digest = c.header.id ∧ ∃ s : Finset PublicKey,
      w.committee.quorumThreshold ≤ w.committee.stakeOf s ∧
      (∀ name ∈ s, name ∈ w.committee.keys) ∧
      ∀ name ∈ s, name ∈ w.honest → ∃ h,
        .createdVote (Vote.new h name) ∈ (cores name).outputs ∧
        Examined (w.core name) known (w.Signed cores) (cores name).outputs (cores name).store h ∧
        SameContent h c.header := by
  have hcertified := Certificate.certified_of_verify (fun hb => (hw.batch _ _).mp hb)
    (Bool.eq_false_iff.mpr hgen) hc.verified
  have hstake : (c.votes.map fun v => w.committee.stake v.1).sum =
      w.committee.stakeOf (c.votes.map Prod.fst).toFinset := by
    unfold Committee.stakeOf
    rw [List.sum_toFinset _ hcertified.distinct, List.map_map]
    rfl
  refine ⟨hcertified.identified.symm, _, hstake ▸ hcertified.quorum, fun name hmem => ?_,
    fun name hmem hname => ?_⟩
  · obtain ⟨x, hx, rfl⟩ := List.mem_map.mp (List.mem_toFinset.mp hmem)
    exact hcertified.members x hx
  · obtain ⟨x, hx, rfl⟩ := List.mem_map.mp (List.mem_toFinset.mp hmem)
    obtain ⟨events, current, hn⟩ := nodeInv_of_run hw hrun x.1 hname
    have hsigns := hc.genuine x hx (hcertified.signed x hx) hname
    obtain ⟨h, hvote, hexamined, hid, -, -⟩ := hn.voted_of_signs hw hc.known hsigns
    exact ⟨h, hvote, hexamined, hw.ids h c.header hexamined.known hc.known hexamined.identified
      hcertified.identified.symm hid⟩

/-- Only what passes for a genesis certificate is of round 0. -/
theorem round_ne_zero (hc : w.Valid known cores c) (hgen : ¬ w.PassesForGenesis c) :
    c.round ≠ 0 := by
  obtain ⟨-, s, hquorum, hmem, hvoted⟩ := voters hw hrun hc hgen
  obtain ⟨name, hname, hin, -⟩ := hw.exists_honest_of_quorums s s hquorum hquorum hmem
  obtain ⟨h, -, hexamined, hsame⟩ := hvoted name hin hname
  have hround : h.round = c.round := hsame.round
  rw [← hround]
  exact hexamined.positive

end Certified

section Fresh

variable (hw : w.Sound known) (hrun : w.Run known w.Fresh cores)

include hw hrun

/-- An honest primary votes for one header of an author and a round. -/
theorem vote_unique (hname : name ∈ w.honest)
    (hv : .createdVote (Vote.new h name) ∈ (cores name).outputs)
    (hv' : .createdVote (Vote.new h' name) ∈ (cores name).outputs)
    (hauthor : h.author = h'.author) (hround : h.round = h'.round) : h.id = h'.id := by
  obtain ⟨events, current, hn⟩ := nodeInv_of_run hw hrun name hname
  obtain ⟨g, r, hinv⟩ := voteInv_of_run (w.core name) _ hn.once
    (run_of_imp (fun s e hk => hk.2.elim (fun he => he ▸ trivial) id) hn.run) hn.unforged
  exact hinv.unique _ _ hv hv' hauthor hround

/-- Two certificates of one author and round are for the same header. -/
theorem sameContent_of_valid (hc : w.Valid known cores c) (hc' : w.Valid known cores c')
    (hgen : ¬ w.PassesForGenesis c) (hgen' : ¬ w.PassesForGenesis c')
    (hround : c.round = c'.round) (horigin : c.origin = c'.origin) :
    SameContent c.header c'.header := by
  obtain ⟨hid, s, hquorum, hmem, hvoted⟩ := voters hw hrun hc hgen
  obtain ⟨hid', s', hquorum', -, hvoted'⟩ := voters hw hrun hc' hgen'
  obtain ⟨name, hname, hin, hin'⟩ := hw.exists_honest_of_quorums s s' hquorum hquorum' hmem
  obtain ⟨h, hvote, -, hsame⟩ := hvoted name hin hname
  obtain ⟨h', hvote', -, hsame'⟩ := hvoted' name hin' hname
  have hunique := vote_unique hw hrun hname hvote hvote'
    (hsame.author.trans (horigin.trans hsame'.author.symm))
    (hsame.round.trans (hround.trans hsame'.round.symm))
  exact hw.ids c.header c'.header hc.known hc'.known hid hid'
    (hsame.id.symm.trans (hunique.trans hsame'.id))

/-- Two certificates of one author and round have one digest. -/
theorem digest_eq_of_valid (hc : w.Valid known cores c) (hc' : w.Valid known cores c')
    (hround : c.round = c'.round) (horigin : c.origin = c'.origin) : c.digest = c'.digest := by
  have hid : c.header.id = c'.header.id := by
    by_cases hgen : w.PassesForGenesis c
    · -- of round 0 there are only the genesis certificates
      have hgen' : w.PassesForGenesis c' := by
        by_contra hnot
        have h0 : c.round = 0 := Certificate.round_of_same_genesis hgen
        exact round_ne_zero hw hrun hc' hnot (hround ▸ h0)
      rw [id_of_passesForGenesis hgen, id_of_passesForGenesis hgen']
    · have hgen' : ¬ w.PassesForGenesis c' := fun hpass =>
        round_ne_zero hw hrun hc hgen (hround.trans (Certificate.round_of_same_genesis hpass))
      exact (sameContent_of_valid hw hrun hc hc' hgen hgen' hround horigin).id
  unfold Certificate.digest
  rw [hid, hround, horigin]

/-- The parents of a certificate that verifies, of different authors with a quorum. -/
theorem parents_of_valid (hc : w.Valid known cores c) (hgen : ¬ w.PassesForGenesis c) :
    ∃ parents : List (Certificate PublicKey Digest Signature),
      parents.map Certificate.digest = c.header.parents.toList ∧
      (∀ q ∈ parents, w.Valid known cores q ∧ q.round + 1 = c.round) ∧
      (parents.map Certificate.origin).Nodup ∧
      w.committee.quorumThreshold ≤
        w.committee.stakeOf (parents.map Certificate.origin).toFinset := by
  obtain ⟨hid, s, hquorum, hmem, hvoted⟩ := voters hw hrun hc hgen
  obtain ⟨name, hname, hin, -⟩ := hw.exists_honest_of_quorums s s hquorum hquorum hmem
  obtain ⟨h, -, hexamined, hsame⟩ := hvoted name hin hname
  obtain ⟨parents, hmap, haccepted, hrounds, hstake⟩ := hexamined.supported.parents
  have hround : h.round = c.round := hsame.round
  have hvalid : ∀ q ∈ parents, w.Valid known cores q := fun q hq =>
    (haccepted q hq).elim (valid_genesis hw) valid_of_accepted
  have hprev : ∀ q ∈ parents, q.round + 1 = c.round := fun q hq => (hrounds q hq).trans hround
  have hnodup : (parents.map Certificate.origin).Nodup := by
    have hdigests : (parents.map Certificate.digest).Nodup := by
      rw [hmap]
      exact OrdSet.nodup_toList _
    refine List.Nodup.map_on (fun q hq q' hq' ho => ?_) (List.Nodup.of_map _ hdigests)
    have hq1 := hprev q hq
    have hq2 := hprev q' hq'
    exact List.inj_on_of_nodup_map hdigests hq hq'
      (digest_eq_of_valid hw hrun (hvalid q hq) (hvalid q' hq') (by omega) ho)
  refine ⟨parents, hmap.trans (congrArg OrdSet.toList hsame.parents), fun q hq =>
    ⟨hvalid q hq, hprev q hq⟩, hnodup, ?_⟩
  unfold Committee.stakeOf
  rw [List.sum_toFinset _ hnodup, List.map_map]
  exact hstake

end Fresh

/-- Agreement on headers: in every state that the primaries of a committee reach, as long as
    nothing old comes back from a waiter, all certificates of one author and round that verify
    are for one header, whoever shows them. -/
theorem certificates_agree (w : Setting PublicKey)
    (known : Header PublicKey Digest Signature → Prop) (hw : w.Sound known)
    (cores : States PublicKey Digest Signature) (hrun : w.Run known w.Fresh cores)
    (c c' : Certificate PublicKey Digest Signature) (hc : w.Valid known cores c)
    (hc' : w.Valid known cores c') (hround : c.round = c'.round) (horigin : c.origin = c'.origin) :
    c.digest = c'.digest ∧ (c.round ≠ 0 → SameContent c.header c'.header) := by
  refine ⟨digest_eq_of_valid hw hrun hc hc' hround horigin, fun hne => ?_⟩
  have hnot : ∀ {c : Certificate PublicKey Digest Signature}, c.round ≠ 0 →
      ¬ w.PassesForGenesis c := fun hne hgen => hne (Certificate.round_of_same_genesis hgen)
  exact sameContent_of_valid hw hrun hc hc' (hnot hne) (hnot (hround ▸ hne)) hround horigin

/-- The certified DAG, as long as nothing old comes back from a waiter: the parents of a
    certificate that verifies are certificates of the round before that verify, by different
    authors, who hold a quorum of the stake. -/
theorem certified_parents (w : Setting PublicKey)
    (known : Header PublicKey Digest Signature → Prop) (hw : w.Sound known)
    (cores : States PublicKey Digest Signature) (hrun : w.Run known w.Fresh cores)
    (c : Certificate PublicKey Digest Signature) (hc : w.Valid known cores c)
    (hgen : ¬ w.PassesForGenesis c) :
    ∃ parents : List (Certificate PublicKey Digest Signature),
      parents.map Certificate.digest = c.header.parents.toList ∧
      (∀ q ∈ parents, w.Valid known cores q ∧ q.round + 1 = c.round ∧
        (w.PassesForGenesis q ↔ c.round = 1)) ∧
      (parents.map Certificate.origin).Nodup ∧
      w.committee.quorumThreshold ≤
        w.committee.stakeOf (parents.map Certificate.origin).toFinset := by
  obtain ⟨parents, hmap, hparents, hnodup, hquorum⟩ := parents_of_valid hw hrun hc hgen
  refine ⟨parents, hmap, fun q hq => ⟨(hparents q hq).1, (hparents q hq).2, ?_⟩, hnodup, hquorum⟩
  have hprev := (hparents q hq).2
  constructor
  · intro hgen
    have h0 : q.round = 0 := Certificate.round_of_same_genesis hgen
    omega
  · intro hone
    by_contra hnot
    have hne := round_ne_zero hw hrun (hparents q hq).1 hnot
    omega

/-! ## Four primaries, one of them byzantine

Primary 0 proposes; 1 and 2 vote for its header, which 0 certifies. Authority 3 adds a vote
of its own, so that there are two certificates. -/

section Sample

open Toy

namespace NetworkSample

/-- Signatures that say what they sign. -/
scoped instance pairs : Ed25519 ℕ ℕ (ℕ × ℕ) :=
  ⟨fun d name => (d, name), fun s d name => s = (d, name),
    fun d votes => votes.all fun v => v.2 = (d, v.1)⟩

def committee : Committee ℕ :=
  ⟨⟨[(0, ⟨1, []⟩), (1, ⟨1, []⟩), (2, ⟨1, []⟩), (3, ⟨1, []⟩)], Committee.sorted_four⟩⟩

def setting : Setting ℕ := ⟨committee, 50, false, {0, 1, 2}⟩

def proposer : Proposer.Params ℕ := ⟨0, committee, 1000⟩

/-- The first header of primary 0. -/
def header : Header ℕ ℕ (ℕ × ℕ) :=
  Proposer.newHeader (ℕ × ℕ) proposer 0 (Proposer.State.initial (ℕ × ℕ) proposer)

def headers : List (Header ℕ ℕ (ℕ × ℕ)) :=
  default :: header :: (Certificate.genesis committee).map (·.header)

def vote (name : ℕ) : ℕ × ℕ × ℕ := (name, (Vote.new header name : Vote ℕ ℕ (ℕ × ℕ)).signature)

/-- The certificate that primary 0 assembles. -/
def certificate : Certificate ℕ ℕ (ℕ × ℕ) := ⟨header, [vote 0, vote 1, vote 2]⟩

/-- Another one for the same header, with the vote of authority 3. -/
def variant : Certificate ℕ ℕ (ℕ × ℕ) := ⟨header, [vote 3, vote 1, vote 2]⟩

theorem sound : setting.Sound (· ∈ headers) where
  stake := by decide
  total := by decide
  minority := by decide
  sign name _ d d' := by simp [Ed25519.verify, Ed25519.sign]
  batch d votes := by simp [Ed25519.verify, Ed25519.verifyBatch]
  start := List.mem_cons_self
  genesis c hc := List.mem_cons_of_mem _ (List.mem_cons_of_mem _ (List.mem_map_of_mem hc))
  apart := by
    have key : ∀ h ∈ headers, ∀ h' ∈ headers, h.id ≠ voteDigest h' := by decide +kernel
    exact fun h h' hh hh' => key h hh h' hh'
  votes := by
    have key : ∀ h ∈ headers, ∀ h' ∈ headers, voteDigest h = voteDigest h' →
        h.id = h'.id ∧ h.round = h'.round ∧ h.author = h'.author := by decide +kernel
    exact fun h h' hh hh' => key h hh h' hh'
  ids := by
    have key : ∀ h ∈ headers, ∀ h' ∈ headers, h.digest = h.id → h'.digest = h'.id →
        h.id = h'.id → { h with signature := h'.signature } = h' := by decide +kernel
    exact fun h h' hh hh' => key h hh h' hh'
  zero := by decide +kernel

def steps : List (ℕ × Event ℕ ℕ (ℕ × ℕ)) :=
  [(0, .ownHeader header), (1, .primaryHeader header), (2, .primaryHeader header),
    (0, .primaryVote (Vote.new header 1)), (0, .primaryVote (Vote.new header 2)),
    (1, .primaryCertificate certificate)]

/-- The states after the first `n` steps. -/
def states (n : ℕ) : States ℕ ℕ (ℕ × ℕ) :=
  (steps.take n).foldl (fun cores x => cores.after setting x.1 x.2 0) fun _ => State.initial

theorem header_mem : header ∈ headers := List.mem_cons_of_mem _ List.mem_cons_self

/-- The signature on the header, once it has been broadcast. -/
theorem unforged_header {cores : States ℕ ℕ (ℕ × ℕ)}
    (hc : .broadcastHeader header ∈ (cores 0).outputs) :
    setting.Unforged cores header.signature header.id header.author :=
  fun _ _ => Or.inl ⟨header, hc, rfl⟩

theorem unforged_vote {cores : States ℕ ℕ (ℕ × ℕ)} {name : ℕ}
    (hc : .createdVote (Vote.new header name) ∈ (cores name).outputs) :
    setting.Unforged cores (vote name).2 (voteDigest header) name :=
  fun _ _ => Or.inr ⟨Vote.new header name, hc, rfl⟩

/-- The vote that primary 0 is given. -/
theorem received_vote {cores : States ℕ ℕ (ℕ × ℕ)} {name : ℕ}
    (hc : .createdVote (Vote.new header name) ∈ (cores name).outputs) :
    setting.Received (· ∈ headers) cores 0 (.primaryVote (Vote.new header name)) :=
  ⟨fun _ => ⟨header, header_mem, rfl, rfl, rfl⟩, unforged_vote hc⟩

theorem unforged_votes (cores : States ℕ ℕ (ℕ × ℕ))
    (h0 : .createdVote (Vote.new header 0) ∈ (cores 0).outputs)
    (h1 : .createdVote (Vote.new header 1) ∈ (cores 1).outputs)
    (h2 : .createdVote (Vote.new header 2) ∈ (cores 2).outputs) (name : ℕ) :
    setting.Unforged cores (vote name).2 (voteDigest header) name := by
  by_cases hname : name ∈ setting.honest
  · have hcases : name = 0 ∨ name = 1 ∨ name = 2 := by simpa [setting] using hname
    rcases hcases with rfl | rfl | rfl
    · exact unforged_vote h0
    · exact unforged_vote h1
    · exact unforged_vote h2
  · exact fun _ hhonest => absurd hhonest hname

/-- The certificate that primary 1 is given. -/
theorem received_certificate {cores : States ℕ ℕ (ℕ × ℕ)}
    (hc : .broadcastHeader header ∈ (cores 0).outputs)
    (h0 : .createdVote (Vote.new header 0) ∈ (cores 0).outputs)
    (h1 : .createdVote (Vote.new header 1) ∈ (cores 1).outputs)
    (h2 : .createdVote (Vote.new header 2) ∈ (cores 2).outputs) :
    setting.Received (· ∈ headers) cores 1 (.primaryCertificate certificate) := by
  refine ⟨fun _ => header_mem, unforged_header hc, fun x hx => ?_⟩
  simp only [certificate, List.mem_cons, List.not_mem_nil, or_false] at hx
  rcases hx with rfl | rfl | rfl <;> exact unforged_votes cores h0 h1 h2 _

theorem run_states : setting.Run (· ∈ headers) setting.Fresh (states 6) := by
  have h1 : setting.Run (· ∈ headers) setting.Fresh (states 1) :=
    Setting.Run.initial.step 0 (by decide) (.ownHeader header) 0 (by decide +kernel)
      ⟨header_mem, proposer, _, 0, rfl, rfl, fun _ hx => absurd hx List.not_mem_nil,
        Nat.zero_lt_one, Or.inl ⟨rfl, rfl⟩⟩ trivial
  have h2 : setting.Run (· ∈ headers) setting.Fresh (states 2) :=
    h1.step 1 (by decide) (.primaryHeader header) 0 (by decide +kernel)
      ⟨fun _ => header_mem, unforged_header (by decide +kernel)⟩ trivial
  have h3 : setting.Run (· ∈ headers) setting.Fresh (states 3) :=
    h2.step 2 (by decide) (.primaryHeader header) 0 (by decide +kernel)
      ⟨fun _ => header_mem, unforged_header (by decide +kernel)⟩ trivial
  have h4 : setting.Run (· ∈ headers) setting.Fresh (states 4) :=
    h3.step 0 (by decide) (.primaryVote (Vote.new header 1)) 0 (by decide +kernel)
      (received_vote (by decide +kernel)) trivial
  have h5 : setting.Run (· ∈ headers) setting.Fresh (states 5) :=
    h4.step 0 (by decide) (.primaryVote (Vote.new header 2)) 0 (by decide +kernel)
      (received_vote (by decide +kernel)) trivial
  exact h5.step 1 (by decide) (.primaryCertificate certificate) 0 (by decide +kernel)
    (received_certificate (by decide +kernel) (by decide +kernel) (by decide +kernel)
      (by decide +kernel)) trivial

/-- Both certificates are valid, and neither passes for a genesis certificate. -/
theorem valid_of_votes {c : Certificate ℕ ℕ (ℕ × ℕ)} (hc : c ∈ [certificate, variant]) :
    setting.Valid (· ∈ headers) (states 6) c ∧ ¬ setting.PassesForGenesis c := by
  have hall := unforged_votes (states 6) (by decide +kernel) (by decide +kernel)
    (by decide +kernel)
  simp only [List.mem_cons, List.not_mem_nil, or_false] at hc
  rcases hc with rfl | rfl
  · refine ⟨⟨header_mem, by decide +kernel, fun x hx => ?_⟩, ?_⟩
    · simp only [certificate, List.mem_cons, List.not_mem_nil, or_false] at hx
      rcases hx with rfl | rfl | rfl <;> exact hall _
    · unfold Setting.PassesForGenesis
      decide +kernel
  · refine ⟨⟨header_mem, by decide +kernel, fun x hx => ?_⟩, ?_⟩
    · simp only [variant, List.mem_cons, List.not_mem_nil, or_false] at hx
      rcases hx with rfl | rfl | rfl <;> exact hall _
    · unfold Setting.PassesForGenesis
      decide +kernel

end NetworkSample

open NetworkSample

theorem certificates_agree_sample :
    certificate.digest = variant.digest ∧ SameContent certificate.header variant.header := by
  obtain ⟨hdigest, hsame⟩ :=
    certificates_agree setting (· ∈ headers) sound (states 6) run_states certificate variant
      (valid_of_votes (by simp)).1 (valid_of_votes (by simp)).1 rfl rfl
  exact ⟨hdigest, hsame (by decide)⟩

theorem certified_parents_sample :
    ∃ parents : List (Certificate ℕ ℕ (ℕ × ℕ)),
      parents.map Certificate.digest = variant.header.parents.toList ∧
      (∀ q ∈ parents, setting.Valid (· ∈ headers) (states 6) q ∧ q.round + 1 = variant.round ∧
        (setting.PassesForGenesis q ↔ variant.round = 1)) ∧
      (parents.map Certificate.origin).Nodup ∧
      setting.committee.quorumThreshold ≤
        setting.committee.stakeOf (parents.map Certificate.origin).toFinset :=
  certified_parents setting (· ∈ headers) sound (states 6) run_states variant
    (valid_of_votes (by simp)).1 (valid_of_votes (by simp)).2

end Sample

end DagBft.Primaries
