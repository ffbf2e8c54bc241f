/-
  `Core` does not vote for two headers of one author and round, provided that no header
  comes back from a waiter after its round is garbage collected.

  `VoteInv` is the invariant. `last_voted` remembers the authors of the votes of the
  rounds that are not garbage collected, so a vote for an author that it does not list is
  the first of its round. The check of `sanitize_header` keeps older headers out; the two
  loopback paths do not have it, and `votes_equivocate` is a run in which a header that was
  suspended before the clean-up is voted for after it.
-/
import DagBft.Primary.Frame

namespace DagBft.Core

open Std.Do

set_option mvcgen.warning false

variable {PublicKey Digest Signature : Type} [LinearOrder PublicKey] [LinearOrder Digest]

/-- A header signed by this primary is one that its proposer made. -/
def Acceptable (p : Params PublicKey) (own : Header PublicKey Digest Signature → Prop)
    (h : Header PublicKey Digest Signature) : Prop :=
  h.author = p.name → h.round = 0 ∨ ∃ h', own h' ∧ h'.id = h.id ∧ h'.round = h.round

/-- The waiters are given acceptable headers only. -/
def Safe (p : Params PublicKey) (own : Header PublicKey Digest Signature → Prop) :
    Output PublicKey Digest Signature → Prop
  | .syncBatches _ h => Acceptable p own h
  | .syncParents _ h => Acceptable p own h
  | .syncCertificate c => Acceptable p own c.header
  | _ => True

/-- The invariant, for the headers `own` of the proposer and the garbage collected
    round `g` and the consensus round `r`. -/
structure VoteInv (p : Params PublicKey) (own : Header PublicKey Digest Signature → Prop) (g r : ℕ)
    (s : State PublicKey Digest Signature) : Prop where
  gcRound : s.gcRound = g
  consensusRound : s.consensusRound = r
  gcRound_le : g ≤ r - p.gcDepth
  /-- Recent votes are remembered. -/
  voted : ∀ v, .createdVote v ∈ s.outputs → g ≤ v.round → v.origin ∈ s.lastVoted v.round
  ownVote : ∀ v, .createdVote v ∈ s.outputs → v.origin = p.name →
    ∃ h, own h ∧ h.id = v.id ∧ h.round = v.round
  unique : ∀ v v', .createdVote v ∈ s.outputs → .createdVote v' ∈ s.outputs →
    v.origin = v'.origin → v.round = v'.round → v.id = v'.id
  safe : ∀ o ∈ s.outputs, Safe p own o
  current : Acceptable p own s.currentHeader
  current_author : s.currentHeader.author = p.name ∨ s.currentHeader.round = 0

variable {p : Params PublicKey} {own : Header PublicKey Digest Signature → Prop} {g r : ℕ}
  {s s' : State PublicKey Digest Signature} {h : Header PublicKey Digest Signature}

/-- Only the last votes, the current header and the outputs matter. -/
theorem VoteInv.frame (hi : VoteInv p own g r s) (hg : s'.gcRound = s.gcRound)
    (hr : s'.consensusRound = s.consensusRound) (hl : s'.lastVoted = s.lastVoted)
    (hc : s'.currentHeader = s.currentHeader) (ho : s'.outputs = s.outputs) :
    VoteInv p own g r s' where
  gcRound := hg.trans hi.gcRound
  consensusRound := hr.trans hi.consensusRound
  gcRound_le := hi.gcRound_le
  voted := by
    rw [ho, hl]
    exact hi.voted
  ownVote := by
    rw [ho]
    exact hi.ownVote
  unique := by
    rw [ho]
    exact hi.unique
  safe := by
    rw [ho]
    exact hi.safe
  current := hc ▸ hi.current
  current_author := hc ▸ hi.current_author

/-- Sending anything but a vote. -/
theorem VoteInv.send (hi : VoteInv p own g r s) {o : Output PublicKey Digest Signature}
    (hne : ∀ v, o ≠ .createdVote v) (ho : Safe p own o) :
    VoteInv p own g r { s with outputs := s.outputs ++ [o] } := by
  have hvote : ∀ v, .createdVote v ∈ s.outputs ++ [o] → .createdVote v ∈ s.outputs := by
    intro v hv
    rcases List.mem_append.mp hv with hv | hv
    · exact hv
    · exact absurd (List.mem_singleton.mp hv).symm (hne v)
  refine ⟨hi.gcRound, hi.consensusRound, hi.gcRound_le, fun v hv => hi.voted v (hvote v hv),
    fun v hv => hi.ownVote v (hvote v hv),
    fun v v' hv hv' => hi.unique v v' (hvote v hv) (hvote v' hv'), ?_, hi.current,
    hi.current_author⟩
  intro o' ho'
  rcases List.mem_append.mp ho' with ho' | ho'
  · exact hi.safe o' ho'
  · rwa [List.mem_singleton.mp ho']

section

variable [AsBytes PublicKey] [AsBytes Digest] [Sha512 Digest]
  [Ed25519 PublicKey Digest Signature]

/-- Voting for a header whose author is not in `last_voted`. -/
theorem VoteInv.vote (hi : VoteInv p own g r s)
    (huniq : ∀ h h', own h → own h' → h.round = h'.round → h.id = h'.id)
    (hacc : Acceptable p own h) (hround : h.round ≠ 0) (hg : h.author = p.name ∨ g ≤ h.round)
    (hnew : h.author ∉ s.lastVoted h.round) :
    VoteInv p own g r { s with
      lastVoted := Function.update s.lastVoted h.round (h.author :: s.lastVoted h.round)
      outputs := s.outputs ++ [.createdVote (Vote.new h p.name)] } := by
  have hvotes : ∀ v, .createdVote v ∈ s.outputs ++ [.createdVote (Vote.new h p.name)] →
      .createdVote v ∈ s.outputs ∨ v = Vote.new h p.name := by
    intro v hv
    rcases List.mem_append.mp hv with hv | hv
    · exact Or.inl hv
    · exact Or.inr (Output.createdVote.inj (List.mem_singleton.mp hv))
  have hown : h.author = p.name → ∃ h', own h' ∧ h'.id = h.id ∧ h'.round = h.round :=
    fun ha => (hacc ha).resolve_left hround
  -- an earlier vote for the same author and round is for the same header
  have hsame : ∀ v, .createdVote v ∈ s.outputs → v.origin = h.author → v.round = h.round →
      v.id = h.id := by
    intro v hv ho hr
    rcases hg with ha | hg
    · obtain ⟨h1, hown1, hid1, hr1⟩ := hi.ownVote v hv (ho.trans ha)
      obtain ⟨h2, hown2, hid2, hr2⟩ := hown ha
      rw [← hid1, ← hid2]
      exact huniq h1 h2 hown1 hown2 (by omega)
    · have hmem := hi.voted v hv (by omega)
      rw [ho, hr] at hmem
      exact absurd hmem hnew
  refine ⟨hi.gcRound, hi.consensusRound, hi.gcRound_le, ?_, ?_, ?_, ?_, hi.current,
    hi.current_author⟩
  · intro v hv hgv
    rcases hvotes v hv with hv | rfl
    · have hmem := hi.voted v hv hgv
      by_cases hr : v.round = h.round
      · simp only [hr, Function.update_self] at hmem ⊢
        exact List.mem_cons_of_mem _ hmem
      · simpa only [Function.update_of_ne hr] using hmem
    · simp [Vote.new]
  · intro v hv ho
    rcases hvotes v hv with hv | rfl
    · exact hi.ownVote v hv ho
    · exact hown ho
  · intro v v' hv hv' ho hr
    rcases hvotes v hv with hv | rfl <;> rcases hvotes v' hv' with hv' | rfl
    · exact hi.unique v v' hv hv' ho hr
    · exact hsame v hv ho hr
    · exact (hsame v' hv' ho.symm hr.symm).symm
    · rfl
  · intro o ho
    rcases List.mem_append.mp ho with ho | ho
    · exact hi.safe o ho
    · rw [List.mem_singleton.mp ho]
      trivial

end

/-! ## What each function keeps -/

/-- The condition on a header under which processing it keeps the invariant. -/
def Votable (p : Params PublicKey) (own : Header PublicKey Digest Signature → Prop) (g : ℕ)
    (h : Header PublicKey Digest Signature) : Prop :=
  Acceptable p own h ∧ (h.author = p.name ∨ g ≤ h.round ∨ h.round = 0)

theorem VoteInv.votable_current (hi : VoteInv p own g r s) : Votable p own g s.currentHeader :=
  ⟨hi.current, hi.current_author.imp id Or.inr⟩

/-- `m` keeps `VoteInv`, whether or not it returns an error. -/
def KeepsVotes (p : Params PublicKey) (own : Header PublicKey Digest Signature → Prop) (g r : ℕ)
    {α : Type} (m : M PublicKey Digest Signature α) : Prop :=
  ⦃fun s => ⌜VoteInv p own g r s⌝⦄ m
  ⦃post⟨fun _ s => ⌜VoteInv p own g r s⌝, fun _ s => ⌜VoteInv p own g r s⌝⟩⦄

variable (p own g r)

theorem keepsVotes_send {o : Output PublicKey Digest Signature} (hne : ∀ v, o ≠ .createdVote v)
    (ho : Safe p own o) : KeepsVotes p own g r (send o) := by
  unfold KeepsVotes
  mvcgen [send]
  exact VoteInv.send ‹_› hne ho

theorem keepsVotes_missingPayload (hacc : Acceptable p own h) :
    KeepsVotes p own g r (missingPayload p h) := by
  have hsend : ∀ missing, KeepsVotes p own g r (send (.syncBatches missing h)) :=
    fun _ => keepsVotes_send p own g r (by simp) hacc
  unfold KeepsVotes at hsend ⊢
  mvcgen [missingPayload, hsend]

theorem keepsVotes_writeStore (k : StoreKey Digest) (v : StoreValue PublicKey Digest Signature) :
    KeepsVotes p own g r (writeStore k v) := by
  unfold KeepsVotes
  mvcgen [writeStore]
  rename_i s hi _
  exact hi.frame rfl rfl rfl rfl rfl

theorem keepsVotes_markProcessing (h : Header PublicKey Digest Signature) :
    KeepsVotes p own g r (markProcessing h) := by
  unfold KeepsVotes
  mvcgen [markProcessing]
  rename_i s hi _
  exact hi.frame rfl rfl rfl rfl rfl

/-- A certificate that is assembled is for the current header. -/
theorem appendVote_voteInv (v : Vote PublicKey Digest Signature) :
    ⦃fun s => ⌜VoteInv p own g r s⌝⦄ appendVote p v
    ⦃post⟨fun o s => ⌜VoteInv p own g r s ∧ ∀ c, o = some c → Votable p own g c.header⌝,
      fun _ s => ⌜VoteInv p own g r s⌝⟩⦄ := by
  mvcgen [appendVote, orReturn]
  rename_i s hi agg hok
  refine ⟨VoteInv.frame hi rfl rfl rfl rfl rfl, ?_⟩
  rintro c hc
  obtain ⟨agg', o⟩ := agg
  obtain rfl : o = some c := hc
  rw [VotesAggregator.header_of_append hok]
  exact hi.votable_current

variable [AsBytes PublicKey] [AsBytes Digest] [Sha512 Digest]

theorem keepsVotes_appendCertificate (c : Certificate PublicKey Digest Signature) :
    KeepsVotes p own g r (appendCertificate p c) := by
  unfold KeepsVotes
  mvcgen [appendCertificate]
  rename_i s hi _
  exact hi.frame rfl rfl rfl rfl rfl

variable [Inhabited PublicKey] [Inhabited Digest] [Inhabited Signature]

theorem keepsVotes_getParents (hacc : Acceptable p own h) :
    KeepsVotes p own g r (getParents p h) := by
  have hsend : ∀ missing, KeepsVotes p own g r (send (.syncParents missing h)) :=
    fun _ => keepsVotes_send p own g r (by simp) hacc
  unfold KeepsVotes at hsend ⊢
  mvcgen [getParents, orReturn, hsend]

theorem keepsVotes_deliverCertificate {c : Certificate PublicKey Digest Signature}
    (hacc : Acceptable p own c.header) : KeepsVotes p own g r (deliverCertificate p c) := by
  have hsend : KeepsVotes p own g r (send (.syncCertificate c)) :=
    keepsVotes_send p own g r (by simp) hacc
  unfold KeepsVotes at hsend ⊢
  mvcgen [deliverCertificate, hsend]

section Nested

variable {f : Header PublicKey Digest Signature → M PublicKey Digest Signature Unit}
  (hf : ∀ h, Votable p own g h → KeepsVotes p own g r (f h))

include hf

theorem keepsVotes_processCertificateWith {c : Certificate PublicKey Digest Signature}
    (hc : Votable p own g c.header) : KeepsVotes p own g r (processCertificateWith p f c) := by
  have hheader := hf c.header hc
  have hdeliver := keepsVotes_deliverCertificate p own g r hc.1
  have hwrite := keepsVotes_writeStore p own g r (.digest c.digest) (.certificate c)
  have happend := keepsVotes_appendCertificate p own g r c
  have hparents : ∀ parents round, KeepsVotes p own g r (send (.newParents parents round)) :=
    fun _ _ => keepsVotes_send p own g r (by simp) trivial
  have hnew : KeepsVotes p own g r (send (.newCertificate c)) :=
    keepsVotes_send p own g r (by simp) trivial
  unfold KeepsVotes at hheader hdeliver hwrite happend hparents hnew ⊢
  mvcgen [processCertificateWith, hheader, hdeliver, hwrite, happend, hparents, hnew]

theorem keepsVotes_processVoteWith (v : Vote PublicKey Digest Signature) :
    KeepsVotes p own g r (processVoteWith p f v) := by
  have happend := appendVote_voteInv p own g r v
  have hsend : ∀ c, KeepsVotes p own g r (send (.broadcastCertificate c)) :=
    fun _ => keepsVotes_send p own g r (by simp) trivial
  have hcert : ∀ c : Certificate PublicKey Digest Signature,
      ⦃fun s => ⌜VoteInv p own g r s ∧ Votable p own g c.header⌝⦄ processCertificateWith p f c
      ⦃post⟨fun _ s => ⌜VoteInv p own g r s⌝, fun _ s => ⌜VoteInv p own g r s⌝⟩⦄ :=
    fun c => triple_of_imp (keepsVotes_processCertificateWith p own g r hf)
  unfold KeepsVotes at hsend ⊢
  mvcgen [processVoteWith, expect, happend, hsend, hcert] <;> grind

end Nested

variable [Ed25519 PublicKey Digest Signature]

omit [Inhabited PublicKey] [Inhabited Digest] [Inhabited Signature] in
theorem keepsVotes_createVote
    (huniq : ∀ h h', own h → own h' → h.round = h'.round → h.id = h'.id)
    (hv : Votable p own g h) (hround : h.round ≠ 0) : KeepsVotes p own g r (createVote p h) := by
  unfold KeepsVotes
  mvcgen [createVote, send]
  rename_i s hi hnew _ _
  exact hi.vote huniq hv.1 hround (hv.2.imp_right fun hor => hor.resolve_right hround) hnew

/-- `process_header` keeps the invariant. -/
theorem keepsVotes_processHeader
    (huniq : ∀ h h', own h → own h' → h.round = h'.round → h.id = h'.id) (n : ℕ)
    (hv : Votable p own g h) : KeepsVotes p own g r (processHeader p n h) := by
  induction n generalizing h with
  | zero =>
      unfold KeepsVotes
      mvcgen [processHeader]
  | succ n ih =>
      have hmark := keepsVotes_markProcessing p own g r h
      have hparents := keepsVotes_getParents p own g r hv.1
      have hpayload := keepsVotes_missingPayload p own g r hv.1
      have hwrite := keepsVotes_writeStore p own g r (.digest h.id) (.header h)
      have hcreate : ⦃fun s => ⌜VoteInv p own g r s ∧ h.round ≠ 0⌝⦄ createVote p h
          ⦃post⟨fun _ s => ⌜VoteInv p own g r s⌝, fun _ s => ⌜VoteInv p own g r s⌝⟩⦄ :=
        triple_of_imp (keepsVotes_createVote p own g r huniq hv)
      have hvote : ∀ v, KeepsVotes p own g r (processVoteWith p (processHeader p n) v) :=
        keepsVotes_processVoteWith p own g r fun _ => ih
      have hsend : ∀ v, KeepsVotes p own g r (send (.sendVote v)) :=
        fun _ => keepsVotes_send p own g r (by simp) trivial
      unfold KeepsVotes at hmark hparents hpayload hwrite hvote hsend ⊢
      mvcgen [processHeader, orReturn, expect, hmark, hparents, hpayload, hwrite, hcreate, hvote,
        hsend]
      · exact ⟨‹_›, round_ne_zero_of_checkParents ‹_› ‹_›⟩
      · exact id
      · exact ⟨‹_›, round_ne_zero_of_checkParents ‹_› ‹_›⟩
      · exact id

/-! ## What an event keeps -/

/-- A signature of this primary is under the id and the round of a header of its proposer. -/
def Signed (p : Params PublicKey) (own : Header PublicKey Digest Signature → Prop)
    (h : Header PublicKey Digest Signature) : Prop :=
  h.author = p.name → Ed25519.verify h.signature h.id h.author = true →
    ∃ h', own h' ∧ h'.id = h.id ∧ h'.round = h.round

/-- What the rest of the system promises about the headers of this primary: the proposer
    makes one header for each round, and nobody else can sign a header in its name. -/
def EventOk (p : Params PublicKey) (own : Header PublicKey Digest Signature → Prop) :
    Event PublicKey Digest Signature → Prop
  | .ownHeader h => own h ∧ h.author = p.name
  | .primaryHeader h => Signed p own h
  | .primaryCertificate c => Signed p own c.header
  | _ => True

/-- What loops back is not of a garbage collected round, our own headers apart. -/
def LoopbackFresh (p : Params PublicKey) (s : State PublicKey Digest Signature) :
    Event PublicKey Digest Signature → Prop
  | .loopbackHeader h => h.author = p.name ∨ s.gcRound ≤ h.round
  | .loopbackCertificate c => c.origin = p.name ∨ s.gcRound ≤ c.round
  | _ => True

instance [DecidableEq Signature] (e : Event PublicKey Digest Signature) :
    Decidable (LoopbackFresh p s e) :=
  match e with
  | .loopbackHeader h => inferInstanceAs (Decidable (h.author = p.name ∨ s.gcRound ≤ h.round))
  | .loopbackCertificate c => inferInstanceAs (Decidable (c.origin = p.name ∨ s.gcRound ≤ c.round))
  | .primaryHeader _ | .primaryVote _ | .primaryCertificate _ | .ownHeader _ | .othersBatch .. =>
      inferInstanceAs (Decidable True)

omit [Inhabited PublicKey] [Inhabited Digest] [Inhabited Signature] in
theorem Signed.acceptable (hs : Signed p own h)
    (hv : h.verify p.committee = .ok ()) : Acceptable p own h :=
  fun ha => Or.inr (hs ha (Header.verify_eq_ok.mp hv).2.2.2)

/-- The header of a certificate from the network may be voted for. -/
theorem votable_of_verify {c : Certificate PublicKey Digest Signature} (hs : Signed p own c.header)
    (hg : g ≤ c.round) (hv : c.verify p.committee = .ok ()) : Votable p own g c.header := by
  cases hgen : (Certificate.genesis p.committee).any (·.same c) with
  | true =>
      have h0 : c.header.round = 0 := Certificate.round_of_same_genesis hgen
      exact ⟨fun _ => Or.inl h0, Or.inr (Or.inr h0)⟩
  | false =>
      have hh := ((Certificate.verify_eq_ok hgen).mp hv).1
      exact ⟨Signed.acceptable p own hs hh, Or.inr (Or.inl hg)⟩

omit [Inhabited PublicKey] [Inhabited Digest] [Inhabited Signature] in
theorem sanitizeHeader_spec (h : Header PublicKey Digest Signature) :
    ⦃fun s => ⌜VoteInv p own g r s⌝⦄ sanitizeHeader p h
    ⦃post⟨fun _ s => ⌜VoteInv p own g r s ∧ (g ≤ h.round ∧ h.verify p.committee = .ok ())⌝,
      fun _ s => ⌜VoteInv p own g r s⌝⟩⦄ := by
  mvcgen [sanitizeHeader, orReturn]
  rename_i s hi _ hround _ hverify
  refine ⟨hi, ?_, hverify⟩
  rw [← hi.gcRound]
  exact of_decide_eq_true (ensure_eq_ok.mp hround)

theorem sanitizeCertificate_spec (c : Certificate PublicKey Digest Signature) :
    ⦃fun s => ⌜VoteInv p own g r s⌝⦄ sanitizeCertificate p c
    ⦃post⟨fun _ s => ⌜VoteInv p own g r s ∧ (g ≤ c.round ∧ c.verify p.committee = .ok ())⌝,
      fun _ s => ⌜VoteInv p own g r s⌝⟩⦄ := by
  mvcgen [sanitizeCertificate, orReturn]
  rename_i s hi _ hround _ hverify
  refine ⟨hi, ?_, hverify⟩
  rw [← hi.gcRound]
  exact of_decide_eq_true (ensure_eq_ok.mp hround)

omit [Inhabited PublicKey] [Inhabited Digest] [Inhabited Signature] in
theorem keepsVotes_sanitizeVote (v : Vote PublicKey Digest Signature) :
    KeepsVotes p own g r (sanitizeVote p v) := by
  unfold KeepsVotes
  mvcgen [sanitizeVote, orReturn]

section Events

variable (huniq : ∀ h h', own h → own h' → h.round = h'.round → h.id = h'.id)

include huniq

theorem keepsVotes_processCertificate {c : Certificate PublicKey Digest Signature}
    (hc : Votable p own g c.header) : KeepsVotes p own g r (processCertificate p c) :=
  keepsVotes_processCertificateWith p own g r
    (fun _ => keepsVotes_processHeader p own g r huniq recursionDepth) hc

theorem keepsVotes_processOwnHeader (hown : own h) (ha : h.author = p.name) :
    KeepsVotes p own g r (processOwnHeader p h) := by
  have hacc : Acceptable p own h := fun _ => Or.inr ⟨h, hown, rfl, rfl⟩
  have hsend : KeepsVotes p own g r (send (.broadcastHeader h)) :=
    keepsVotes_send p own g r (by simp) trivial
  have hheader := keepsVotes_processHeader p own g r huniq recursionDepth ⟨hacc, Or.inl ha⟩
  unfold KeepsVotes at hsend hheader ⊢
  mvcgen [processOwnHeader, hsend, hheader]
  rename_i s hi _
  exact { hi with current := hacc, current_author := Or.inl ha }

/-- Every branch of `select!` keeps the invariant. -/
theorem keepsVotes_handle {e : Event PublicKey Digest Signature} (hok : EventOk p own e)
    (hh : ∀ h, e = .loopbackHeader h → Votable p own g h)
    (hc : ∀ c, e = .loopbackCertificate c → Votable p own g c.header) :
    KeepsVotes p own g r (handle p e) := by
  cases e with
  | primaryHeader h =>
      have hsanitize := sanitizeHeader_spec p own g r h
      have hheader :
          ⦃fun s => ⌜VoteInv p own g r s ∧ (g ≤ h.round ∧ h.verify p.committee = .ok ())⌝⦄
          processHeader p recursionDepth h
          ⦃post⟨fun _ s => ⌜VoteInv p own g r s⌝, fun _ s => ⌜VoteInv p own g r s⌝⟩⦄ :=
        triple_of_imp fun hv => keepsVotes_processHeader p own g r huniq recursionDepth
          ⟨Signed.acceptable p own hok hv.2, Or.inr (Or.inl hv.1)⟩
      unfold KeepsVotes
      mvcgen [handle, hsanitize, hheader]
  | primaryVote v =>
      have hsanitize := keepsVotes_sanitizeVote p own g r v
      have hvote : KeepsVotes p own g r (processVote p v) :=
        keepsVotes_processVoteWith p own g r
          (fun _ => keepsVotes_processHeader p own g r huniq recursionDepth) v
      unfold KeepsVotes at hsanitize hvote ⊢
      mvcgen [handle, hsanitize, hvote]
  | primaryCertificate c =>
      have hsanitize := sanitizeCertificate_spec p own g r c
      have hcert : ⦃fun s => ⌜VoteInv p own g r s ∧ (g ≤ c.round ∧ c.verify p.committee = .ok ())⌝⦄
          processCertificate p c
          ⦃post⟨fun _ s => ⌜VoteInv p own g r s⌝, fun _ s => ⌜VoteInv p own g r s⌝⟩⦄ :=
        triple_of_imp fun hv => keepsVotes_processCertificate p own g r huniq
          (votable_of_verify p own g hok hv.1 hv.2)
      unfold KeepsVotes
      mvcgen [handle, hsanitize, hcert]
  | loopbackHeader h => exact keepsVotes_processHeader p own g r huniq recursionDepth (hh h rfl)
  | loopbackCertificate c => exact keepsVotes_processCertificate p own g r huniq (hc c rfl)
  | ownHeader h => exact keepsVotes_processOwnHeader p own g r huniq hok.1 hok.2
  | othersBatch digest worker counts => exact keepsVotes_writeStore p own g r _ _

end Events

omit [AsBytes PublicKey] [AsBytes Digest] [Sha512 Digest] [Inhabited PublicKey] [Inhabited Digest]
  [Inhabited Signature] [Ed25519 PublicKey Digest Signature] in
/-- A clean-up forgets the votes of the rounds that it garbage collects only. -/
theorem VoteInv.cleanup (hi : VoteInv p own g r s) {round : ℕ} (hr : r ≤ round) :
    ∃ g', VoteInv p own g' round (s.cleanup p.gcDepth round) := by
  have hg := hi.gcRound_le
  unfold State.cleanup
  by_cases hlt : p.gcDepth < round
  · rw [if_pos hlt]
    refine ⟨round - p.gcDepth,
      { hi with gcRound := rfl, consensusRound := rfl, gcRound_le := le_rfl, voted := ?_ }⟩
    intro v hv hgv
    show v.origin ∈ if round - p.gcDepth ≤ v.round then s.lastVoted v.round else []
    rw [if_pos hgv]
    exact hi.voted v hv (by omega)
  · rw [if_neg hlt]
    exact ⟨g, { hi with consensusRound := rfl, gcRound_le := by omega }⟩

/-! ## Runs -/

theorem VoteInv.step (huniq : ∀ h h', own h → own h' → h.round = h'.round → h.id = h'.id)
    (hi : VoteInv p own g r s) {e : Event PublicKey Digest Signature} {round : ℕ}
    (hen : Enabled s e round) (hok : EventOk p own e) (hfresh : LoopbackFresh p s e) :
    ∃ g' r', VoteInv p own g' r' (step p s e round) := by
  have hheader : ∀ h, e = .loopbackHeader h → Votable p own g h := by
    rintro h rfl
    refine ⟨?_, hfresh.imp_right fun hg => Or.inl (hi.gcRound ▸ hg)⟩
    rcases hen.2.2 with ⟨missing, hm⟩ | ⟨missing, hm⟩
    · exact hi.safe _ hm
    · exact hi.safe _ hm
  have hcert : ∀ c, e = .loopbackCertificate c → Votable p own g c.header := by
    rintro c rfl
    exact ⟨hi.safe _ hen.2.2, hfresh.imp_right fun hg => Or.inl (hi.gcRound ▸ hg)⟩
  have hkeep := inv_of_triple (keepsVotes_handle p own g r huniq hok hheader hcert) s hi
  have hr : r ≤ round := hi.consensusRound ▸ hen.2.1
  refine step_of_handle (J := fun s => ∃ g' r', VoteInv p own g' r' s) p hkeep ?_ ?_ ?_
  · intro s' hs'
    exact ⟨g, r, hs'.frame rfl rfl rfl rfl rfl⟩
  · intro s' hs'
    obtain ⟨g', hg'⟩ := VoteInv.cleanup p own g r hs' hr
    exact ⟨g', round, hg'⟩
  · intro s' hs'
    exact ⟨g, r, hs'⟩

omit [AsBytes PublicKey] [AsBytes Digest] [Sha512 Digest] [Ed25519 PublicKey Digest Signature] in
theorem VoteInv.initial : VoteInv p own 0 0 (State.initial : State PublicKey Digest Signature) where
  gcRound := rfl
  consensusRound := rfl
  gcRound_le := Nat.zero_le _
  voted := by simp [State.initial]
  ownVote := by simp [State.initial]
  unique := by simp [State.initial]
  safe := by simp [State.initial]
  current := fun _ => Or.inl rfl
  current_author := Or.inr rfl

/-- The invariant holds in every run whose events keep to `EventOk` and `LoopbackFresh`. -/
theorem voteInv_of_run (huniq : ∀ h h', own h → own h' → h.round = h'.round → h.id = h'.id)
    {events : List (Event PublicKey Digest Signature)} (hrun : Run p (LoopbackFresh p) events s)
    (hok : ∀ e ∈ events, EventOk p own e) : ∃ g r, VoteInv p own g r s := by
  induction hrun with
  | initial => exact ⟨0, 0, VoteInv.initial p own⟩
  | step run e round enabled cond ih =>
      obtain ⟨g, r, hi⟩ := ih fun e' he' => hok e' (List.mem_append_left _ he')
      exact VoteInv.step p own g r huniq hi enabled (hok e (by simp)) cond

/-- The proposer makes at most one header for each round. -/
def ProposesOnce (events : List (Event PublicKey Digest Signature)) : Prop :=
  ∀ h h', .ownHeader h ∈ events → .ownHeader h' ∈ events → h.round = h'.round → h.id = h'.id

/-- The events keep to `EventOk`, for the headers that the proposer sends in this run. -/
def Unforged (p : Params PublicKey) (events : List (Event PublicKey Digest Signature)) : Prop :=
  ∀ e ∈ events, EventOk p (fun h => .ownHeader h ∈ events) e

/-- No equivocating votes: if nothing loops back from a garbage collected round, the votes
    that `Core` creates for one author and one round are all for the same header. -/
theorem votes_unique_of_fresh (p : Params PublicKey)
    (events : List (Event PublicKey Digest Signature)) (s : State PublicKey Digest Signature)
    (hrun : Run p (LoopbackFresh p) events s) (honce : ProposesOnce events)
    (hforged : Unforged p events) (v v' : Vote PublicKey Digest Signature)
    (hv : .createdVote v ∈ s.outputs) (hv' : .createdVote v' ∈ s.outputs)
    (horigin : v.origin = v'.origin) (hround : v.round = v'.round) : v.id = v'.id := by
  obtain ⟨g, r, hi⟩ := voteInv_of_run p _ honce hrun hforged
  exact hi.unique v v' hv hv' horigin hround

/-! ## A loopback that comes too late

Primary 0 runs with a committee in which it has a quorum of the stake. Authority 1 makes two
headers for round 1; the batch that the first one refers to is missing at first. -/

section Sample

open Toy

namespace VoteSample

def committee : Committee ℕ := ⟨⟨[(0, ⟨5, []⟩), (1, ⟨1, [0]⟩), (2, ⟨1, []⟩)], by decide⟩⟩

def params : Params ℕ := ⟨0, committee, 50, false⟩

/-- A header of authority 1, with its id. -/
def header (payload : OrdMap ℕ ℕ) : Header ℕ ℕ Unit :=
  let h : Header ℕ ℕ Unit :=
    { author := 1, round := 1, payload := payload, accountCounts := ∅, avgQueueDelayMs := 0
      createdAt := 0, id := 0, signature := ()
      parents := OrdSet.ofList
        ((Certificate.genesis committee : List (Certificate ℕ ℕ Unit)).map (·.digest)) }
  { h with id := h.digest }

def withBatch : Header ℕ ℕ Unit := header ((∅ : OrdMap ℕ ℕ).insert 7 0)

def withoutBatch : Header ℕ ℕ Unit := header ∅

/-- The first header is suspended, and comes back when the batch is there. -/
def onTime : List (Event ℕ ℕ Unit × ℕ) :=
  [(.primaryHeader withBatch, 0), (.othersBatch 7 0 ∅, 0), (.loopbackHeader withBatch, 0),
    (.primaryHeader withoutBatch, 0)]

/-- The second header is voted for, and round 1 is garbage collected, before the first
    header comes back. -/
def tooLate : List (Event ℕ ℕ Unit × ℕ) :=
  [(.primaryHeader withBatch, 0), (.othersBatch 7 0 ∅, 0), (.primaryHeader withoutBatch, 52),
    (.loopbackHeader withBatch, 52)]

theorem run_onTime : Run params (LoopbackFresh params) (onTime.map Prod.fst)
    (replay params onTime) :=
  run_replay params onTime (by decide +kernel) (by decide +kernel)

theorem run_tooLate : Run params (fun _ _ => True) (tooLate.map Prod.fst)
    (replay params tooLate) :=
  run_replay params tooLate (by decide +kernel) (by decide +kernel)

/-- The headers are of authority 1, and the proposer makes none. -/
theorem eventOk {own : Header ℕ ℕ Unit → Prop} {e : Event ℕ ℕ Unit}
    (he : e ∈ [.primaryHeader withBatch, .othersBatch 7 0 ∅, .loopbackHeader withBatch,
      .primaryHeader withoutBatch]) : EventOk params own e := by
  simp only [List.mem_cons, List.not_mem_nil, or_false] at he
  rcases he with rfl | rfl | rfl | rfl
  · exact fun ha => absurd ha (by decide)
  · trivial
  · trivial
  · exact fun ha => absurd ha (by decide)

theorem unforged_onTime : Unforged params (onTime.map Prod.fst) := fun _ he => eventOk he

theorem unforged_tooLate : Unforged params (tooLate.map Prod.fst) :=
  fun e he => eventOk <| by
    simp only [tooLate, List.map_cons, List.map_nil, List.mem_cons] at he ⊢
    tauto

theorem proposesOnce_onTime : ProposesOnce (onTime.map Prod.fst) := by
  intro h h' hh
  simp [onTime] at hh

theorem proposesOnce_tooLate : ProposesOnce (tooLate.map Prod.fst) := by
  intro h h' hh
  simp [tooLate] at hh

end VoteSample

open VoteSample

theorem votes_unique_of_fresh_sample :
    (Vote.new withBatch 0 : Vote ℕ ℕ Unit).id = (Vote.new withBatch 0 : Vote ℕ ℕ Unit).id :=
  votes_unique_of_fresh params (onTime.map Prod.fst) (replay params onTime) run_onTime
    proposesOnce_onTime unforged_onTime _ _ (by decide +kernel) (by decide +kernel) rfl rfl

/-- Without the condition `Core` may vote for two headers of one author and round. -/
theorem votes_equivocate :
    ¬ ∀ (p : Params ℕ) (events : List (Event ℕ ℕ Unit)) (s : State ℕ ℕ Unit),
        Run p (fun _ _ => True) events s → ProposesOnce events → Unforged p events →
        ∀ v v', .createdVote v ∈ s.outputs → .createdVote v' ∈ s.outputs →
          v.origin = v'.origin → v.round = v'.round → v.id = v'.id := by
  intro h
  have hid := h params _ _ run_tooLate proposesOnce_tooLate unforged_tooLate
    (Vote.new withoutBatch 0) (Vote.new withBatch 0) (by decide +kernel) (by decide +kernel)
    (by decide +kernel) (by decide +kernel)
  exact absurd hid (by decide +kernel)

end Sample

end DagBft.Core
