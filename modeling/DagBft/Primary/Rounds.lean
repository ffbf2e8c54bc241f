/-
  Which certificates `Core` sends to consensus with round 0, where `Consensus::run`
  computes the round before.

  No function checks the round. Once the current header is of a round above 0 only
  `process_certificate` on a certificate that was received can send one (`Settled`). Until
  then the current header is the default one, and a quorum of votes makes a certificate of
  it too. `Harmless` is the condition on an event under which neither happens, and
  `round_pos_of_harmless` is the result for runs. The genesis certificates themselves are
  received, accepted and sent on: `genesis_sent`.
-/
import DagBft.Primary.Delivery

namespace DagBft.Core

open Std.Do

set_option mvcgen.warning false

variable {PublicKey Digest Signature : Type} [LinearOrder Digest]

/-- No certificate of round 0 was sent to consensus. -/
def PastGenesis (s : State PublicKey Digest Signature) : Prop :=
  ∀ c, .newCertificate c ∈ s.outputs → c.round ≠ 0

/-- And none is assembled, since the current header is not of round 0. -/
def Settled (s : State PublicKey Digest Signature) : Prop :=
  PastGenesis s ∧ s.currentHeader.round ≠ 0

/-- What `process_vote` and `process_header` look at is the same in `s'`, and nothing more
    was sent to consensus. -/
structure Same (s s' : State PublicKey Digest Signature) : Prop where
  currentHeader : s'.currentHeader = s.currentHeader
  votesAggregator : s'.votesAggregator = s.votesAggregator
  lastVoted : s'.lastVoted = s.lastVoted
  store : s'.store = s.store
  sent : ∀ c, .newCertificate c ∈ s'.outputs → .newCertificate c ∈ s.outputs

variable {s s' s₀ : State PublicKey Digest Signature} {h : Header PublicKey Digest Signature}
  {c : Certificate PublicKey Digest Signature}

theorem Same.of_outputs (hc : s'.currentHeader = s.currentHeader)
    (hv : s'.votesAggregator = s.votesAggregator) (hl : s'.lastVoted = s.lastVoted)
    (hs : s'.store = s.store) (ho : s'.outputs = s.outputs) : Same s s' :=
  ⟨hc, hv, hl, hs, fun _ hmem => ho ▸ hmem⟩

theorem PastGenesis.mono (hi : PastGenesis s)
    (hsub : ∀ c, .newCertificate c ∈ s'.outputs → .newCertificate c ∈ s.outputs) :
    PastGenesis s' :=
  fun c hc => hi c (hsub c hc)

theorem PastGenesis.send_certificate (hi : PastGenesis s) (hround : c.round ≠ 0) :
    PastGenesis { s with outputs := s.outputs ++ [.newCertificate c] } := by
  intro c' hc'
  rcases List.mem_append.mp hc' with hold | hnew
  · exact hi c' hold
  · rw [Output.newCertificate.inj (List.mem_singleton.mp hnew)]
    exact hround

/-- A property of states that these changes do not touch. -/
def Plain (I : State PublicKey Digest Signature → Prop) : Prop :=
  ∀ s s', I s → Same s s' → I s'

theorem plain_pastGenesis : Plain (PastGenesis : State PublicKey Digest Signature → Prop) :=
  fun _ _ hi hs => hi.mono hs.sent

theorem plain_settled : Plain (Settled : State PublicKey Digest Signature → Prop) := by
  intro s s' hi hs
  refine ⟨hi.1.mono hs.sent, ?_⟩
  rw [hs.currentHeader]
  exact hi.2

/-- The changes since `s₀` are of this kind. -/
def Untouched (s₀ s : State PublicKey Digest Signature) : Prop := PastGenesis s ∧ Same s₀ s

theorem plain_untouched (s₀ : State PublicKey Digest Signature) :
    Plain (Untouched s₀) := by
  intro s s' hi hs
  refine ⟨hi.1.mono hs.sent, ?_⟩
  exact {
    currentHeader := hs.currentHeader.trans hi.2.currentHeader
    votesAggregator := hs.votesAggregator.trans hi.2.votesAggregator
    lastVoted := hs.lastVoted.trans hi.2.lastVoted
    store := hs.store.trans hi.2.store
    sent := fun c hc => hi.2.sent c (hs.sent c hc) }

/-- `m` keeps what is plain. -/
def Silent {α : Type} (m : M PublicKey Digest Signature α) : Prop :=
  ∀ I : State PublicKey Digest Signature → Prop, Plain I →
    ⦃fun s => ⌜I s⌝⦄ m ⦃post⟨fun _ s => ⌜I s⌝, fun _ s => ⌜I s⌝⟩⦄

theorem silent_send {o : Output PublicKey Digest Signature}
    (ho : ∀ c, o ≠ .newCertificate c) : Silent (send o) := by
  intro I hI
  mvcgen [send]
  rename_i s hi _
  refine hI s _ hi ⟨rfl, rfl, rfl, rfl, fun c hc => ?_⟩
  rcases List.mem_append.mp hc with hold | hnew
  · exact hold
  · exact absurd (List.mem_singleton.mp hnew).symm (ho c)

theorem silent_markProcessing (h : Header PublicKey Digest Signature) :
    Silent (markProcessing h) := by
  intro I hI
  mvcgen [markProcessing]
  rename_i s hi _
  exact hI s _ hi (Same.of_outputs rfl rfl rfl rfl rfl)

/-- `m` keeps `Settled`. -/
def KeepsSettled {α : Type} (m : M PublicKey Digest Signature α) : Prop :=
  ⦃fun s => ⌜Settled s⌝⦄ m ⦃post⟨fun _ s => ⌜Settled s⌝, fun _ s => ⌜Settled s⌝⟩⦄

theorem Silent.keepsSettled {α : Type} {m : M PublicKey Digest Signature α} (hm : Silent m) :
    KeepsSettled m :=
  hm _ plain_settled

theorem keepsSettled_writeStore (k : StoreKey Digest) (v : StoreValue PublicKey Digest Signature) :
    KeepsSettled (writeStore k v) := by
  unfold KeepsSettled
  mvcgen [writeStore]

theorem keepsSettled_send (hround : c.round ≠ 0) : KeepsSettled (send (.newCertificate c)) := by
  unfold KeepsSettled
  mvcgen [send]
  rename_i s hi _
  exact ⟨hi.1.send_certificate hround, hi.2⟩

variable [LinearOrder PublicKey] (p : Params PublicKey)

theorem silent_missingPayload (h : Header PublicKey Digest Signature) :
    Silent (missingPayload p h) := by
  intro I hI
  have hsend : ∀ missing, _ := fun missing =>
    silent_send (o := .syncBatches missing h) (by simp) I hI
  mvcgen [missingPayload, hsend]

/-- A certificate that is assembled is not of round 0. -/
theorem appendVote_settled (v : Vote PublicKey Digest Signature) :
    ⦃fun s => ⌜Settled s⌝⦄ appendVote p v
    ⦃post⟨fun o s => ⌜Settled s ∧ ∀ c, o = some c → c.round ≠ 0⌝, fun _ s => ⌜Settled s⌝⟩⦄ := by
  mvcgen [appendVote, orReturn]
  rename_i s hi agg hok
  refine ⟨hi, ?_⟩
  rintro c hc
  obtain ⟨agg', o⟩ := agg
  obtain rfl : o = some c := hc
  unfold Certificate.round
  rw [VotesAggregator.header_of_append hok]
  exact hi.2

variable [AsBytes PublicKey] [AsBytes Digest] [Sha512 Digest]

theorem silent_appendCertificate (c : Certificate PublicKey Digest Signature) :
    Silent (appendCertificate p c) := by
  intro I hI
  mvcgen [appendCertificate]
  rename_i s hi _
  exact hI s _ hi (Same.of_outputs rfl rfl rfl rfl rfl)

variable [Inhabited PublicKey] [Inhabited Digest] [Inhabited Signature]

theorem silent_getParents (h : Header PublicKey Digest Signature) : Silent (getParents p h) := by
  intro I hI
  have hsend := fun missing => silent_send (o := .syncParents missing h) (by simp) I hI
  mvcgen [getParents, orReturn, hsend]

theorem silent_deliverCertificate (c : Certificate PublicKey Digest Signature) :
    Silent (deliverCertificate p c) := by
  intro I hI
  have hsend := silent_send (o := .syncCertificate c) (by simp) I hI
  mvcgen [deliverCertificate, hsend]

/-! ## Once the current header is not of round 0 -/

section Nested

variable {f : Header PublicKey Digest Signature → M PublicKey Digest Signature Unit}
  (hf : ∀ h, KeepsSettled (f h))

include hf

theorem keepsSettled_processCertificateWith (hround : c.round ≠ 0) :
    KeepsSettled (processCertificateWith p f c) := by
  have hheader := hf c.header
  have hdeliver := (silent_deliverCertificate p c).keepsSettled
  have hwrite := keepsSettled_writeStore (.digest c.digest) (.certificate c)
  have happend := (silent_appendCertificate p c).keepsSettled
  have hparents : ∀ parents, KeepsSettled
      (send (.newParents parents c.round) : M PublicKey Digest Signature Unit) :=
    fun _ => (silent_send (by simp)).keepsSettled
  have hsend := keepsSettled_send hround
  unfold KeepsSettled at hheader hdeliver hwrite happend hparents hsend ⊢
  mvcgen [processCertificateWith, hheader, hdeliver, hwrite, happend, hparents, hsend]

theorem keepsSettled_processVoteWith (v : Vote PublicKey Digest Signature) :
    KeepsSettled (processVoteWith p f v) := by
  have happend := appendVote_settled p v
  have hsend : ∀ c : Certificate PublicKey Digest Signature,
      ⦃fun s => ⌜Settled s ∧ c.round ≠ 0⌝⦄ send (.broadcastCertificate c)
      ⦃post⟨fun _ s => ⌜Settled s ∧ c.round ≠ 0⌝, fun _ s => ⌜Settled s⌝⟩⦄ := by
    intro c
    refine triple_of_imp fun hround => ?_
    have key := (silent_send (o := .broadcastCertificate c) (by simp)).keepsSettled
    unfold KeepsSettled at key
    mvcgen [key]
    exact fun hi => ⟨hi, hround⟩
  have hcert : ∀ c : Certificate PublicKey Digest Signature,
      ⦃fun s => ⌜Settled s ∧ c.round ≠ 0⌝⦄ processCertificateWith p f c
      ⦃post⟨fun _ s => ⌜Settled s⌝, fun _ s => ⌜Settled s⌝⟩⦄ :=
    fun c => triple_of_imp fun hround => keepsSettled_processCertificateWith p hf hround
  unfold KeepsSettled
  mvcgen [processVoteWith, expect, happend, hsend, hcert]
  · rename_i hi
    exact ⟨hi.1, hi.2 _ rfl⟩
  · exact id
  · rename_i hi
    exact hi.1

end Nested

variable [Ed25519 PublicKey Digest Signature]

omit [Inhabited PublicKey] [Inhabited Digest] [Inhabited Signature] in
theorem keepsSettled_createVote (h : Header PublicKey Digest Signature) :
    KeepsSettled (createVote p h) := by
  have hsend := fun v : Vote PublicKey Digest Signature =>
    (silent_send (o := .createdVote v) (by simp)).keepsSettled
  unfold KeepsSettled at hsend ⊢
  mvcgen [createVote, hsend]

theorem keepsSettled_processHeader (n : ℕ) (h : Header PublicKey Digest Signature) :
    KeepsSettled (processHeader p n h) := by
  induction n generalizing h with
  | zero =>
      unfold KeepsSettled
      mvcgen [processHeader]
  | succ n ih =>
      have hmark := (silent_markProcessing h).keepsSettled
      have hparents := (silent_getParents p h).keepsSettled
      have hpayload := (silent_missingPayload p h).keepsSettled
      have hwrite := keepsSettled_writeStore (.digest h.id) (.header h)
      have hcreate := keepsSettled_createVote p h
      have hvote := keepsSettled_processVoteWith p ih
      have hsend := fun v : Vote PublicKey Digest Signature =>
        (silent_send (o := .sendVote v) (by simp)).keepsSettled
      unfold KeepsSettled at hmark hparents hpayload hwrite hcreate hvote hsend ⊢
      mvcgen [processHeader, orReturn, expect, hmark, hparents, hpayload, hwrite, hcreate, hvote,
        hsend]
      · exact id
      · exact id

/-! ## The condition on an event -/

/-- A vote of `author` is counted and completes a certificate. -/
def FillsQuorum (agg : VotesAggregator PublicKey Signature) (author : PublicKey) : Prop :=
  author ∉ agg.used ∧ p.committee.quorumThreshold ≤ u32 (agg.weight + p.committee.stake author)

/-- `process_header` comes to our own vote on the header. -/
def VotesOwn (s : State PublicKey Digest Signature) (h : Header PublicKey Digest Signature) :
    Prop :=
  h.author = p.name ∧ h.author ∉ s.lastVoted h.round ∧
    ∃ parents stake, parents ≠ [] ∧ readParents p s.store h.parents.toList = .ok (parents, []) ∧
      checkParents p h parents 0 = .ok stake ∧ p.committee.quorumThreshold ≤ stake

/-- The parent is a genesis certificate or something is stored under it. -/
def Known (store : Store PublicKey Digest Signature) (d : Digest) : Prop :=
  (findGenesis p d : Option (Certificate PublicKey Digest Signature)).isSome ∨
    (store (.digest d)).isSome

/-- Our own vote does not complete a certificate of a current header of round 0. -/
def HarmlessHeader (s : State PublicKey Digest Signature)
    (h : Header PublicKey Digest Signature) : Prop :=
  s.currentHeader.round = 0 → VotesOwn p s h → ¬ FillsQuorum p s.votesAggregator p.name

/-- A certificate of round 0 waits for parents, or has parents that its header, which was
    not processed, cannot have. -/
def HarmlessCertificate (s : State PublicKey Digest Signature)
    (c : Certificate PublicKey Digest Signature) : Prop :=
  (c.round = 0 → (∀ d ∈ c.header.parents.toList, Known p s.store d) →
    c.header.parents.toList ≠ [] ∧ c.header.id ∉ s.processing c.header.round) ∧
  (c.header.id ∉ s.processing c.header.round → HarmlessHeader p s c.header)

/-- The vote does not complete a certificate of a current header of round 0. -/
def HarmlessVote (s : State PublicKey Digest Signature)
    (v : Vote PublicKey Digest Signature) : Prop :=
  s.currentHeader.round = 0 → ¬ FillsQuorum p s.votesAggregator v.author

/-- What `Core` is given does not make it send a certificate of round 0. The `Proposer`
    makes no header of round 0 (`Proposer.round_newHeader_ne_zero`). -/
def Harmless (s : State PublicKey Digest Signature) :
    Event PublicKey Digest Signature → Prop
  | .primaryHeader h => s.gcRound ≤ h.round → h.verify p.committee = .ok () → HarmlessHeader p s h
  | .primaryVote v =>
      s.currentHeader.round = v.round → v.id = s.currentHeader.id →
        v.origin = s.currentHeader.author → v.verify p.committee = .ok () → HarmlessVote p s v
  | .primaryCertificate c =>
      s.gcRound ≤ c.round → c.verify p.committee = .ok () → HarmlessCertificate p s c
  | .loopbackHeader h => HarmlessHeader p s h
  | .loopbackCertificate c => HarmlessCertificate p s c
  | .ownHeader h => h.round ≠ 0
  | .othersBatch .. => True

/-! ## While it is -/

omit [Ed25519 PublicKey Digest Signature] in
/-- The parents that are read and those that are missing are all of them. -/
theorem length_readParents {store : Store PublicKey Digest Signature} {l : List Digest}
    {parents : List (Certificate PublicKey Digest Signature)} {missing : List Digest}
    (hok : readParents p store l = .ok (parents, missing)) :
    parents.length + missing.length = l.length ∧ ∀ d ∈ missing, d ∈ l ∧ ¬ Known p store d := by
  induction l generalizing parents missing with
  | nil =>
      obtain ⟨rfl, rfl⟩ := Prod.mk.inj (Except.ok.inj hok)
      simp
  | cons d l ih =>
      have hstep : ∀ x : Certificate PublicKey Digest Signature,
          (readParents p store l >>= fun r => .ok (x :: r.1, r.2)) =
            (.ok (parents, missing) : Except (DagError PublicKey Digest) _) →
          parents.length + missing.length = (d :: l).length ∧
            ∀ d' ∈ missing, d' ∈ d :: l ∧ ¬ Known p store d' := by
        intro x hx
        cases hread : readParents p store l with
        | error e => simp [hread, bind, Except.bind] at hx
        | ok r =>
            obtain ⟨parents', missing'⟩ := r
            rw [hread] at hx
            obtain ⟨rfl, rfl⟩ := Prod.mk.inj (Except.ok.inj hx)
            obtain ⟨hlen, hmiss⟩ := ih hread
            refine ⟨by simp only [List.length_cons]; omega, fun d' hd' => ?_⟩
            exact ⟨List.mem_cons_of_mem _ (hmiss d' hd').1, (hmiss d' hd').2⟩
      unfold readParents at hok
      cases hgen : (findGenesis p d : Option (Certificate PublicKey Digest Signature)) with
      | some g =>
          rw [hgen] at hok
          exact hstep g hok
      | none =>
          rw [hgen] at hok
          cases hsto : store (.digest d) with
          | none =>
              simp only [hsto] at hok
              cases hread : readParents p store l with
              | error e => simp [hread, bind, Except.bind] at hok
              | ok r =>
                  obtain ⟨parents', missing'⟩ := r
                  rw [hread] at hok
                  obtain ⟨rfl, rfl⟩ := Prod.mk.inj (Except.ok.inj hok)
                  obtain ⟨hlen, hmiss⟩ := ih hread
                  refine ⟨by simp only [List.length_cons]; omega, ?_⟩
                  rintro d' hd'
                  rcases List.mem_cons.mp hd' with rfl | hd'
                  · exact ⟨List.mem_cons_self, by simp [Known, hgen, hsto]⟩
                  · exact ⟨List.mem_cons_of_mem _ (hmiss d' hd').1, (hmiss d' hd').2⟩
          | some v =>
              cases v with
              | certificate x =>
                  simp only [hsto] at hok
                  exact hstep x hok
              | header x => simp [hsto] at hok
              | accountCounts x => simp [hsto] at hok

omit [Ed25519 PublicKey Digest Signature] in
/-- The parents of a header are all there, or one of them is missing. -/
theorem getParents_untouched (s₀ : State PublicKey Digest Signature)
    (h : Header PublicKey Digest Signature) :
    ⦃fun s => ⌜Untouched s₀ s⌝⦄ getParents p h
    ⦃post⟨fun parents s => ⌜Untouched s₀ s ∧
        (parents = [] → (∀ d ∈ h.parents.toList, Known p s₀.store d) → h.parents.toList = []) ∧
        (parents ≠ [] → readParents p s₀.store h.parents.toList = .ok (parents, []))⌝,
      fun _ s => ⌜PastGenesis s⌝⟩⦄ := by
  have hsend : ∀ missing : List Digest,
      ⦃fun s => ⌜Untouched s₀ s⌝⦄
      (send (.syncParents missing h) : M PublicKey Digest Signature Unit)
      ⦃post⟨fun _ s => ⌜Untouched s₀ s⌝, fun _ s => ⌜Untouched s₀ s⌝⟩⦄ :=
    fun _ => silent_send (by simp) _ (plain_untouched s₀)
  mvcgen [getParents, orReturn, hsend]
  · rename_i s hi r hread hnone
    obtain ⟨parents, missing⟩ := r
    obtain rfl : missing = [] := hnone
    rw [hi.2.store] at hread
    refine ⟨hi, fun hempty _ => ?_, fun _ => hread⟩
    obtain rfl : parents = [] := hempty
    exact List.length_eq_zero_iff.mp (length_readParents p hread).1.symm
  · rename_i s hi r hread hsome _ s' hi'
    obtain ⟨parents, missing⟩ := r
    rw [hi.2.store] at hread
    refine ⟨hi', fun hknown => ?_, fun hne => absurd rfl hne⟩
    obtain ⟨d, hd⟩ := List.exists_mem_of_ne_nil missing hsome
    obtain ⟨hmem, hnot⟩ := (length_readParents p hread).2 d hd
    exact absurd (hknown d hmem) hnot
  · exact And.left
  · rename_i hi _ _
    exact hi.1

/-- No vote was counted since `s₀`. -/
def Uncounted (s₀ s : State PublicKey Digest Signature) : Prop :=
  PastGenesis s ∧ s.currentHeader = s₀.currentHeader ∧ s.votesAggregator = s₀.votesAggregator

omit [Inhabited PublicKey] [Inhabited Digest] [Inhabited Signature]
  [Ed25519 PublicKey Digest Signature] [LinearOrder PublicKey] [AsBytes PublicKey]
  [AsBytes Digest] [Sha512 Digest] in
theorem plain_uncounted (s₀ : State PublicKey Digest Signature) :
    Plain (Uncounted s₀) := by
  rintro s s' ⟨hi, hc, hv⟩ hs
  exact ⟨hi.mono hs.sent, hs.currentHeader.trans hc, hs.votesAggregator.trans hv⟩

omit [LinearOrder PublicKey] [AsBytes PublicKey] [AsBytes Digest] [Sha512 Digest]
  [Inhabited PublicKey] [Inhabited Digest] [Inhabited Signature]
  [Ed25519 PublicKey Digest Signature] in
theorem writeStore_untouched (s₀ : State PublicKey Digest Signature) (k : StoreKey Digest)
    (v : StoreValue PublicKey Digest Signature) :
    ⦃fun s => ⌜Untouched s₀ s⌝⦄ writeStore k v
    ⦃post⟨fun _ s => ⌜Uncounted s₀ s ∧ s.lastVoted = s₀.lastVoted⌝,
      fun _ s => ⌜PastGenesis s⌝⟩⦄ := by
  mvcgen [writeStore]
  rename_i s hi _
  exact ⟨⟨hi.1, hi.2.currentHeader, hi.2.votesAggregator⟩, hi.2.lastVoted⟩

omit [Inhabited PublicKey] [Inhabited Digest] [Inhabited Signature] in
/-- What is known of a vote that we create. -/
theorem createVote_uncounted (s₀ : State PublicKey Digest Signature)
    (h : Header PublicKey Digest Signature) :
    ⦃fun s => ⌜Uncounted s₀ s ∧ s.lastVoted = s₀.lastVoted⌝⦄ createVote p h
    ⦃post⟨fun o s => ⌜Uncounted s₀ s ∧ ∀ v, o = some v →
        v.author = p.name ∧ v.origin = h.author ∧ h.author ∉ s₀.lastVoted h.round⌝,
      fun _ s => ⌜PastGenesis s⌝⟩⦄ := by
  have hsend : ∀ v : Vote PublicKey Digest Signature,
      ⦃fun s => ⌜Uncounted s₀ s⌝⦄ send (.createdVote v)
      ⦃post⟨fun _ s => ⌜Uncounted s₀ s⌝, fun _ s => ⌜Uncounted s₀ s⌝⟩⦄ :=
    fun _ => silent_send (by simp) _ (plain_uncounted s₀)
  mvcgen [createVote, hsend]
  · rename_i hi _
    refine ⟨hi.1, ?_⟩
    rintro v hv
    cases hv
  · rename_i hi _ _
    exact hi.1
  · rename_i s hi hvoted _ _ s' hi'
    refine ⟨hi', ?_⟩
    rintro v hv
    obtain rfl := Option.some.inj hv
    rw [hi.2] at hvoted
    exact ⟨rfl, rfl, hvoted⟩
  · exact And.left

omit [AsBytes PublicKey] [AsBytes Digest] [Sha512 Digest] [Inhabited PublicKey] [Inhabited Digest]
  [Inhabited Signature] [Ed25519 PublicKey Digest Signature] in
/-- A vote that does not complete a certificate is only counted. -/
theorem appendVote_of_not_fills (v : Vote PublicKey Digest Signature) :
    ⦃fun s => ⌜PastGenesis s ∧ ¬ FillsQuorum p s.votesAggregator v.author⌝⦄ appendVote p v
    ⦃post⟨fun o s => ⌜PastGenesis s ∧ o = none⌝, fun _ s => ⌜PastGenesis s⌝⟩⦄ := by
  mvcgen [appendVote, orReturn]
  · rename_i s hi agg hok
    refine ⟨hi.1, ?_⟩
    obtain ⟨agg', o⟩ := agg
    obtain ⟨hnew, -, -, hcases⟩ := VotesAggregator.append_cases hok
    rcases hcases with ⟨hquorum, -⟩ | ⟨-, hnone⟩
    · exact absurd ⟨hnew, hquorum⟩ hi.2
    · exact hnone
  · rename_i hi _ _
    exact hi.1

omit [Ed25519 PublicKey Digest Signature] in
theorem processVoteWith_pastGenesis
    {f : Header PublicKey Digest Signature → M PublicKey Digest Signature Unit}
    (hf : ∀ h, KeepsSettled (f h)) (v : Vote PublicKey Digest Signature) :
    ⦃fun s => ⌜PastGenesis s ∧
      (s.currentHeader.round = 0 → ¬ FillsQuorum p s.votesAggregator v.author)⌝⦄
    processVoteWith p f v
    ⦃post⟨fun _ s => ⌜PastGenesis s⌝, fun _ s => ⌜PastGenesis s⌝⟩⦄ := by
  rintro s ⟨hi, hharmless⟩
  by_cases hround : s.currentHeader.round = 0
  · have happend := appendVote_of_not_fills p v
    have key : ⦃fun s => ⌜PastGenesis s ∧ ¬ FillsQuorum p s.votesAggregator v.author⌝⦄
        processVoteWith p f v
        ⦃post⟨fun _ s => ⌜PastGenesis s⌝, fun _ s => ⌜PastGenesis s⌝⟩⦄ := by
      mvcgen [processVoteWith, happend]
      · rename_i hnone
        cases hnone.2
      · assumption
    exact key s ⟨hi, hharmless hround⟩
  · exact triple_mono (keepsSettled_processVoteWith p hf v) (fun _ hs => hs) (fun _ hs => hs.1) s
      ⟨hi, hround⟩

/-- The part of `process_header` that compares the counts. -/
def checkCounts (h : Header PublicKey Digest Signature) : M PublicKey Digest Signature Unit := do
  if h.author ≠ p.name ∧ p.baselineMode = false then
    let s ← get
    orReturn (ensure (expectedCounts s.store h = h.accountCounts) (.malformedHeader h.id))

/-- The end of `process_header`, given what `process_vote` calls for an embedded header. -/
def castVote (f : Header PublicKey Digest Signature → M PublicKey Digest Signature Unit)
    (h : Header PublicKey Digest Signature) : M PublicKey Digest Signature Unit := do
  match ← createVote p h with
  | none => pure ()
  | some vote =>
      if vote.origin = p.name then
        expect (processVoteWith p f vote)
      else if h.author ∈ p.committee.keys then
        send (.sendVote vote)
      else
        throw .panic

omit [AsBytes PublicKey] [AsBytes Digest] [Sha512 Digest] [Inhabited PublicKey] [Inhabited Digest]
  [Inhabited Signature] [Ed25519 PublicKey Digest Signature] in
theorem checkCounts_bind {α : Type} (h : Header PublicKey Digest Signature)
    (f : Unit → M PublicKey Digest Signature α) :
    checkCounts p h >>= f =
      if h.author ≠ p.name ∧ p.baselineMode = false then do
        let s ← get
        orReturn (ensure (expectedCounts s.store h = h.accountCounts) (.malformedHeader h.id))
        f ()
      else f () := by
  by_cases hc : h.author ≠ p.name ∧ p.baselineMode = false
  · simp only [checkCounts, if_pos hc, bind_assoc]
  · simp only [checkCounts, if_neg hc, pure_bind]

theorem processHeader_succ (n : ℕ) (h : Header PublicKey Digest Signature) :
    processHeader p (n + 1) h = (do
      markProcessing h
      let parents ← getParents p h
      if parents = [] then
        return
      let stake ← orReturn (checkParents p h parents 0)
      orReturn (ensure (p.committee.quorumThreshold ≤ stake) (.headerRequiresQuorum h.id))
      if ← missingPayload p h then
        return
      checkCounts p h
      writeStore (.digest h.id) (.header h)
      castVote p (processHeader p n) h) := by
  simp only [checkCounts_bind]
  rfl

omit [AsBytes PublicKey] [AsBytes Digest] [Sha512 Digest] [Inhabited PublicKey] [Inhabited Digest]
  [Inhabited Signature] [Ed25519 PublicKey Digest Signature] in
theorem silent_checkCounts (h : Header PublicKey Digest Signature) : Silent (checkCounts p h) := by
  intro I hI
  mvcgen [checkCounts, orReturn]

/-- What we vote on does not complete a certificate. -/
theorem castVote_uncounted (n : ℕ) (hharmless : h.author = p.name →
      h.author ∉ s₀.lastVoted h.round → s₀.currentHeader.round = 0 →
      ¬ FillsQuorum p s₀.votesAggregator p.name) :
    ⦃fun s => ⌜Uncounted s₀ s ∧ s.lastVoted = s₀.lastVoted⌝⦄
    castVote p (processHeader p n) h
    ⦃post⟨fun _ s => ⌜PastGenesis s⌝, fun _ s => ⌜PastGenesis s⌝⟩⦄ := by
  have hcreate := createVote_uncounted p s₀ h
  have hvote := fun v : Vote PublicKey Digest Signature =>
    processVoteWith_pastGenesis p (keepsSettled_processHeader p n) v
  have hsend : ∀ v : Vote PublicKey Digest Signature,
      ⦃fun s => ⌜PastGenesis s⌝⦄ (send (.sendVote v) : M PublicKey Digest Signature Unit)
      ⦃post⟨fun _ s => ⌜PastGenesis s⌝, fun _ s => ⌜PastGenesis s⌝⟩⦄ :=
    fun _ => silent_send (by simp) _ plain_pastGenesis
  mvcgen [castVote, expect, hcreate, hvote, hsend]
  · rename_i hi
    exact hi.1.1
  · rename_i hown _ hi
    obtain ⟨⟨hpast, hcurrent, hagg⟩, hvote⟩ := hi
    obtain ⟨hauthor, horigin, hnew⟩ := hvote _ rfl
    refine ⟨hpast, fun hround => ?_⟩
    rw [hagg, hauthor]
    exact hharmless (horigin.symm.trans hown) hnew (hcurrent ▸ hround)
  · exact id
  · rename_i hi
    exact hi.1.1
  · rename_i hi
    exact hi.1.1

/-- `process_header` sends nothing of round 0. For a header of round 0 it can only return
    early. -/
theorem processHeader_untouched (n : ℕ) (hharmless : HarmlessHeader p s₀ h) :
    ⦃fun s => ⌜Untouched s₀ s⌝⦄ processHeader p (n + 1) h
    ⦃post⟨fun _ s => ⌜PastGenesis s ∧ (h.round = 0 → s.store = s₀.store ∧
        ((∀ d ∈ h.parents.toList, Known p s₀.store d) → h.parents.toList = []))⌝,
      fun _ s => ⌜PastGenesis s⌝⟩⦄ := by
  have hmark := silent_markProcessing h _ (plain_untouched s₀)
  have hparents := getParents_untouched p s₀ h
  have hpayload := silent_missingPayload p h _ (plain_untouched s₀)
  have hcounts := silent_checkCounts p h _ (plain_untouched s₀)
  have hwrite := writeStore_untouched s₀ (.digest h.id) (.header h)
  have hcast (huncounted : h.author = p.name → h.author ∉ s₀.lastVoted h.round →
      s₀.currentHeader.round = 0 → ¬ FillsQuorum p s₀.votesAggregator p.name) :=
    castVote_uncounted p n huncounted
  rw [processHeader_succ]
  mvcgen [orReturn, hmark, hparents, hpayload, hcounts, hwrite, hcast]
  · rename_i hempty _ hi
    exact ⟨hi.1.1, fun _ => ⟨hi.1.2.store, hi.2.1 hempty⟩⟩
  · rename_i hi _ _ _ _
    exact hi.1
  · rename_i hi
    exact ⟨hi.1, fun hround => absurd hround (round_ne_zero_of_checkParents ‹_› ‹_›)⟩
  · exact fun hi => ⟨hi, fun hround => absurd hround (round_ne_zero_of_checkParents ‹_› ‹_›)⟩
  · rename_i parents hne s hi stake hcheck _ hquorum _ _ _ _ _ _ _ _
    intro _ _ _ hauthor hnew hround
    have hstake : p.committee.quorumThreshold ≤ stake := of_decide_eq_true (ensure_eq_ok.mp hquorum)
    exact hharmless hround ⟨hauthor, hnew, parents, stake, hne, hi.2.2 hne, hcheck, hstake⟩
  · exact And.left
  · exact And.left
  · rename_i hi _ _ _ _
    exact hi.1.1
  · rename_i hi _ _
    exact hi.1.1
  · exact And.left

/-- When `process_certificate` asks for the ancestors: a certificate of round 0 waits for one
    of them, has none, or its header was marked before. -/
def Embedded (s₀ : State PublicKey Digest Signature)
    (c : Certificate PublicKey Digest Signature) (s : State PublicKey Digest Signature) : Prop :=
  PastGenesis s ∧ (c.round = 0 → s.store = s₀.store ∧
    ((∀ d ∈ c.header.parents.toList, Known p s₀.store d) →
      c.header.parents.toList = [] ∨ c.header.id ∈ s₀.processing c.header.round))

omit [Ed25519 PublicKey Digest Signature] in
theorem deliverCertificate_pastGenesis (hharmless : HarmlessCertificate p s₀ c) :
    ⦃fun s => ⌜Embedded p s₀ c s⌝⦄ deliverCertificate p c
    ⦃post⟨fun b s => ⌜PastGenesis s ∧ (b = true → c.round ≠ 0)⌝, fun _ s => ⌜PastGenesis s⌝⟩⦄ := by
  have hsend : ⦃fun s => ⌜PastGenesis s⌝⦄
      (send (.syncCertificate c) : M PublicKey Digest Signature Unit)
      ⦃post⟨fun _ s => ⌜PastGenesis s⌝, fun _ s => ⌜PastGenesis s⌝⟩⦄ :=
    silent_send (by simp) _ plain_pastGenesis
  mvcgen [deliverCertificate, hsend]
  · rename_i s hi hall
    refine ⟨hi.1, fun hround => ?_⟩
    obtain ⟨hstore, hparents⟩ := hi.2 hround
    have hknown : ∀ d ∈ c.header.parents.toList, Known p s₀.store d := by
      intro d hd
      have key := List.all_eq_true.mp hall d hd
      rw [hstore] at key
      exact Bool.or_eq_true_iff.mp key
    obtain ⟨hne, hnew⟩ := hharmless.1 hround hknown
    exact (hparents hknown).elim hne hnew
  · rename_i hi _
    exact hi.1
  · simp_all

/-- The part of `process_certificate` after the embedded header. -/
def deliver (c : Certificate PublicKey Digest Signature) : M PublicKey Digest Signature Unit := do
  if ! (← deliverCertificate p c) then
    return
  writeStore (.digest c.digest) (.certificate c)
  match ← appendCertificate p c with
  | some parents => send (.newParents parents c.round)
  | none => pure ()
  send (.newCertificate c)

omit [Ed25519 PublicKey Digest Signature] in
theorem processCertificateWith_eq
    (f : Header PublicKey Digest Signature → M PublicKey Digest Signature Unit)
    (c : Certificate PublicKey Digest Signature) :
    processCertificateWith p f c = (do
      let s ← get
      if c.header.id ∈ s.processing c.header.round then
        deliver p c
      else
        f c.header
        deliver p c) := by
  unfold processCertificateWith deliver
  refine congrArg (get >>= ·) (funext fun s => ?_)
  by_cases hm : c.header.id ∈ s.processing c.header.round
  · rewrite [if_pos hm, if_neg (not_not_intro hm)]
    rfl
  · rewrite [if_neg hm, if_pos hm]
    rfl

omit [Ed25519 PublicKey Digest Signature] in
theorem deliver_pastGenesis (hharmless : HarmlessCertificate p s₀ c) :
    ⦃fun s => ⌜Embedded p s₀ c s⌝⦄ deliver p c
    ⦃post⟨fun _ s => ⌜PastGenesis s⌝, fun _ s => ⌜PastGenesis s⌝⟩⦄ := by
  have hdeliver := deliverCertificate_pastGenesis p hharmless
  have hwrite : ⦃fun s => ⌜PastGenesis s⌝⦄
      (writeStore (.digest c.digest) (.certificate c) : M PublicKey Digest Signature Unit)
      ⦃post⟨fun _ s => ⌜PastGenesis s⌝, fun _ s => ⌜PastGenesis s⌝⟩⦄ := by
    mvcgen [writeStore]
  have happend := silent_appendCertificate p c _ plain_pastGenesis
  have hparents : ∀ parents, ⦃fun s => ⌜PastGenesis s⌝⦄
      (send (.newParents parents c.round) : M PublicKey Digest Signature Unit)
      ⦃post⟨fun _ s => ⌜PastGenesis s⌝, fun _ s => ⌜PastGenesis s⌝⟩⦄ :=
    fun _ => silent_send (by simp) _ plain_pastGenesis
  have hsend : ⦃fun s => ⌜PastGenesis s ∧ c.round ≠ 0⌝⦄
      (send (.newCertificate c) : M PublicKey Digest Signature Unit)
      ⦃post⟨fun _ s => ⌜PastGenesis s⌝, fun _ s => ⌜PastGenesis s⌝⟩⦄ := by
    mvcgen [send]
    rename_i hi _
    exact hi.1.send_certificate hi.2
  mvcgen [deliver, hdeliver, hwrite, happend, hparents, hsend]
  · rename_i hi
    exact hi.1
  · rename_i hi
    exact hi.1
  · rename_i hb _ hi _ _ _ _ _ _ _ _ _ _ _ hpast
    exact ⟨hpast, hi.2 (by simpa using hb)⟩
  · rename_i hb _ hi _ _ _ _ _ _ _ hpast
    exact ⟨hpast, hi.2 (by simpa using hb)⟩

theorem processCertificate_pastGenesis (hharmless : HarmlessCertificate p s₀ c) :
    ⦃fun s => ⌜PastGenesis s ∧ s = s₀⌝⦄ processCertificate p c
    ⦃post⟨fun _ s => ⌜PastGenesis s⌝, fun _ s => ⌜PastGenesis s⌝⟩⦄ := by
  have hheader := fun hnew => processHeader_untouched p 1 (hharmless.2 hnew)
  have hdeliver := deliver_pastGenesis p hharmless
  unfold processCertificate recursionDepth
  rw [processCertificateWith_eq]
  mvcgen [hheader, hdeliver]
  · rename_i s hi hmarked
    obtain ⟨hpast, rfl⟩ := hi
    exact ⟨hpast, fun _ => ⟨rfl, fun _ => Or.inr hmarked⟩⟩
  · rename_i s hi hnew
    exact hi.2 ▸ hnew
  · rename_i s hi hnew
    obtain ⟨hpast, rfl⟩ := hi
    exact ⟨hpast, Same.of_outputs rfl rfl rfl rfl rfl⟩
  · rename_i hi
    refine ⟨hi.1, fun hround => ?_⟩
    obtain ⟨hstore, hparents⟩ := hi.2 hround
    exact ⟨hstore, fun hknown => Or.inl (hparents hknown)⟩

/-! ## Events and runs -/

theorem processHeader_pastGenesis (hharmless : HarmlessHeader p s₀ h) :
    ⦃fun s => ⌜PastGenesis s ∧ s = s₀⌝⦄ processHeader p recursionDepth h
    ⦃post⟨fun _ s => ⌜PastGenesis s⌝, fun _ s => ⌜PastGenesis s⌝⟩⦄ := by
  have hheader := processHeader_untouched p 1 hharmless
  unfold recursionDepth
  mvcgen [hheader]
  · rename_i s hi
    obtain ⟨hpast, rfl⟩ := hi
    exact ⟨hpast, Same.of_outputs rfl rfl rfl rfl rfl⟩
  · exact fun hpast _ => hpast

theorem processOwnHeader_pastGenesis (hround : h.round ≠ 0) :
    ⦃fun s => ⌜PastGenesis s⌝⦄ processOwnHeader p h
    ⦃post⟨fun _ s => ⌜PastGenesis s⌝, fun _ s => ⌜PastGenesis s⌝⟩⦄ := by
  have hsend : KeepsSettled
      (send (.broadcastHeader h) : M PublicKey Digest Signature Unit) :=
    (silent_send (by simp)).keepsSettled
  have hheader := keepsSettled_processHeader p recursionDepth h
  unfold KeepsSettled at hsend hheader
  mvcgen [processOwnHeader, hsend, hheader]
  · exact And.left
  · exact And.left
  · exact And.left

/-- Every branch of `select!`. -/
theorem pastGenesis_handle (hi : PastGenesis s) {e : Event PublicKey Digest Signature}
    (hharmless : Harmless p s e) : PastGenesis ((handle p e).run.run s).2 := by
  cases e with
  | primaryHeader h =>
      have hheader : ⦃fun s' => ⌜(PastGenesis s' ∧ s' = s) ∧
            (s.gcRound ≤ h.round ∧ h.verify p.committee = .ok ())⌝⦄
          processHeader p recursionDepth h
          ⦃post⟨fun _ s => ⌜PastGenesis s⌝, fun _ s => ⌜PastGenesis s⌝⟩⦄ :=
        triple_of_imp fun hok => processHeader_pastGenesis p (hharmless hok.1 hok.2)
      have key : ⦃fun s' => ⌜PastGenesis s' ∧ s' = s⌝⦄ handle p (.primaryHeader h)
          ⦃post⟨fun _ s => ⌜PastGenesis s⌝, fun _ s => ⌜PastGenesis s⌝⟩⦄ := by
        mvcgen [handle, sanitizeHeader, orReturn, hheader]
        · rename_i s' hi' _ hround _ hverify
          refine ⟨hi', ?_, hverify⟩
          rw [← hi'.2]
          exact of_decide_eq_true (ensure_eq_ok.mp hround)
        · rename_i hi' _ _ _ _
          exact hi'.1
        · rename_i hi' _ _
          exact hi'.1
      exact inv_of_triple key s ⟨hi, rfl⟩
  | primaryVote v =>
      have hvote := fun v : Vote PublicKey Digest Signature =>
        processVoteWith_pastGenesis p (keepsSettled_processHeader p recursionDepth) v
      have key : ⦃fun s' => ⌜PastGenesis s' ∧ s' = s⌝⦄ handle p (.primaryVote v)
          ⦃post⟨fun _ s => ⌜PastGenesis s⌝, fun _ s => ⌜PastGenesis s⌝⟩⦄ := by
        mvcgen [handle, sanitizeVote, orReturn, processVote, hvote]
        · rename_i s' hi' _ hround _ hexpected _ hverify
          obtain ⟨hpast, rfl⟩ := hi'
          obtain ⟨hid, horigin, -⟩ := of_decide_eq_true (ensure_eq_ok.mp hexpected)
          exact ⟨hpast, hharmless (of_decide_eq_true (ensure_eq_ok.mp hround)) hid horigin hverify⟩
        · rename_i hi' _ _ _ _ _ _
          exact hi'.1
        · rename_i hi' _ _ _ _
          exact hi'.1
        · rename_i hi' _ _
          exact hi'.1
      exact inv_of_triple key s ⟨hi, rfl⟩
  | primaryCertificate c =>
      have hcert : ⦃fun s' => ⌜(PastGenesis s' ∧ s' = s) ∧
            (s.gcRound ≤ c.round ∧ c.verify p.committee = .ok ())⌝⦄
          processCertificate p c
          ⦃post⟨fun _ s => ⌜PastGenesis s⌝, fun _ s => ⌜PastGenesis s⌝⟩⦄ :=
        triple_of_imp fun hok => processCertificate_pastGenesis p (hharmless hok.1 hok.2)
      have key : ⦃fun s' => ⌜PastGenesis s' ∧ s' = s⌝⦄ handle p (.primaryCertificate c)
          ⦃post⟨fun _ s => ⌜PastGenesis s⌝, fun _ s => ⌜PastGenesis s⌝⟩⦄ := by
        mvcgen [handle, sanitizeCertificate, orReturn, hcert]
        · rename_i s' hi' _ hround _ hverify
          refine ⟨hi', ?_, hverify⟩
          rw [← hi'.2]
          exact of_decide_eq_true (ensure_eq_ok.mp hround)
        · rename_i hi' _ _ _ _
          exact hi'.1
        · rename_i hi' _ _
          exact hi'.1
      exact inv_of_triple key s ⟨hi, rfl⟩
  | loopbackHeader h => exact inv_of_triple (processHeader_pastGenesis p hharmless) s ⟨hi, rfl⟩
  | loopbackCertificate c =>
      exact inv_of_triple (processCertificate_pastGenesis p hharmless) s ⟨hi, rfl⟩
  | ownHeader h => exact inv_of_triple (processOwnHeader_pastGenesis p hharmless) s hi
  | othersBatch digest worker counts => exact hi

theorem PastGenesis.step (hi : PastGenesis s) {e : Event PublicKey Digest Signature} {round : ℕ}
    (hharmless : Harmless p s e) : PastGenesis (step p s e round) := by
  refine step_of_handle p (pastGenesis_handle p hi hharmless) (fun s' hs' => ?_)
    (fun s' hs' => ?_) (fun s' hs' => hs')
  · exact hs'
  · intro c hc
    rw [State.cleanup_outputs] at hc
    exact hs' c hc

theorem pastGenesis_of_run {events : List (Event PublicKey Digest Signature)}
    (hrun : Run p (Harmless p) events s) : PastGenesis s := by
  induction hrun with
  | initial =>
      intro c hc
      simp [State.initial] at hc
  | step run e round enabled cond ih => exact ih.step p cond

/-- A run of harmless events sends no certificate of round 0 to consensus. -/
theorem round_pos_of_harmless (p : Params PublicKey)
    (events : List (Event PublicKey Digest Signature)) (s : State PublicKey Digest Signature)
    (hrun : Run p (Harmless p) events s) (c : Certificate PublicKey Digest Signature)
    (hc : .newCertificate c ∈ s.outputs) : 1 ≤ c.round :=
  Nat.one_le_iff_ne_zero.mpr (pastGenesis_of_run p hrun c hc)

section Sample

open Toy DeliverySample

namespace RoundsSample

/-- Two headers are proposed, and the certificate of the first comes back. -/
def echoed : List (Event ℕ ℕ Unit × ℕ) :=
  [(.ownHeader header1, 0), (.primaryCertificate certificate1, 0), (.ownHeader header2, 0)]

/-- The genesis certificate of authority 1 is received. -/
def genesisReceived : List (Event ℕ ℕ Unit × ℕ) :=
  [(.primaryCertificate ⟨{ (default : Header ℕ ℕ Unit) with author := 1 }, []⟩, 0)]

theorem run_echoed : Run params (Harmless params) (echoed.map Prod.fst)
    (replay params echoed) := by
  refine run_replay params echoed (by decide +kernel) ?_
  intro i hi x hx
  have hlt : i < 3 := List.mem_range.mp hi
  interval_cases i
  · obtain rfl := Option.some.inj hx
    exact Nat.one_ne_zero
  · obtain rfl := Option.some.inj hx
    refine fun _ _ => ⟨fun hround => absurd hround Nat.one_ne_zero, fun _ hround => ?_⟩
    exact absurd hround (by decide +kernel)
  · obtain rfl := Option.some.inj hx
    exact Nat.succ_ne_zero 1

end RoundsSample

open RoundsSample

theorem round_pos_of_harmless_sample : 1 ≤ certificate1.round :=
  round_pos_of_harmless params (echoed.map Prod.fst) (replay params echoed) run_echoed certificate1
    (by decide +kernel)

/-- A genesis certificate is accepted and sent to consensus. -/
theorem genesis_sent :
    ¬ ∀ (p : Params ℕ) (events : List (Event ℕ ℕ Unit)) (s : State ℕ ℕ Unit),
        Run p (fun _ _ => True) events s → (∀ h, .ownHeader h ∈ events → h.round ≠ 0) →
        ∀ c, .newCertificate c ∈ s.outputs → 1 ≤ c.round := by
  intro h
  have hrun : Run params (fun _ _ => True) (genesisReceived.map Prod.fst)
      (replay params genesisReceived) :=
    run_replay params genesisReceived (by decide +kernel) (fun _ _ _ _ => trivial)
  have hround := h params _ _ hrun (by simp [genesisReceived])
    ⟨{ (default : Header ℕ ℕ Unit) with author := 1 }, []⟩ (by decide +kernel)
  exact absurd hround (by decide)

end Sample

end DagBft.Core
