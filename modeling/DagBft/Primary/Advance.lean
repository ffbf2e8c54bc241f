/-
  What a call of `Core` can do to its state, as a relation between the state before and the
  state after (`Advances`): outputs are added at the end, what is stored stays stored, and the
  rounds are left to the clean-up. A certificate is given to the `CertificateWaiter` only if a
  parent of it is missing.

  `step_advances` says so of an iteration of the loop. `newCertificate_of_parentsHeld`: a
  certificate whose parents are all held goes to consensus, unless an error ends the call.
-/
import DagBft.Primary.Evidence

namespace DagBft.Core

open Std.Do

set_option mvcgen.warning false

variable {PublicKey Digest Signature : Type} [LinearOrder PublicKey] [LinearOrder Digest]
  [AsBytes PublicKey] [AsBytes Digest] [Sha512 Digest]
  [Inhabited PublicKey] [Inhabited Digest] [Inhabited Signature]

variable (p : Params PublicKey)

/-- `deliver_certificate` finds all the parents of the certificate. -/
def ParentsHeld (store : Store PublicKey Digest Signature)
    (c : Certificate PublicKey Digest Signature) : Prop :=
  ∀ d ∈ c.header.parents.toList,
    (findGenesis p d : Option (Certificate PublicKey Digest Signature)).isSome = true ∨
      (store (.digest d)).isSome = true

/-- From a state of `Core` to a later one. -/
structure Grows (s s' : State PublicKey Digest Signature) : Prop where
  outputs : ∃ added, s'.outputs = s.outputs ++ added ∧
    ∀ c, .syncCertificate c ∈ added → ¬ ParentsHeld p s.store c
  store : ∀ k, (s.store k).isSome = true → (s'.store k).isSome = true

/-- The same while a header, a vote or a certificate is processed: the rounds stay, and no
    header of our own is broadcast. -/
structure Advances (s s' : State PublicKey Digest Signature) : Prop extends Grows p s s' where
  broadcast : ∀ h, .broadcastHeader h ∈ s'.outputs → .broadcastHeader h ∈ s.outputs
  payload : ∀ d worker, s'.store (.payload d worker) = s.store (.payload d worker)
  header : s'.currentHeader = s.currentHeader
  gcRound : s'.gcRound = s.gcRound
  consensusRound : s'.consensusRound = s.consensusRound
  alive : s'.alive = s.alive

variable {p} {s s' s'' : State PublicKey Digest Signature}
  {c : Certificate PublicKey Digest Signature} {h : Header PublicKey Digest Signature}

theorem ParentsHeld.mono {store store' : Store PublicKey Digest Signature}
    (hr : ParentsHeld p store c) (hsub : ∀ k, (store k).isSome = true → (store' k).isSome = true) :
    ParentsHeld p store' c :=
  fun d hd => (hr d hd).imp_right (hsub _)

theorem Grows.refl (s : State PublicKey Digest Signature) : Grows p s s :=
  ⟨⟨[], by simp, by simp⟩, fun _ => id⟩

theorem Grows.trans (h : Grows p s s') (h' : Grows p s' s'') : Grows p s s'' := by
  obtain ⟨added, hout, hnot⟩ := h.outputs
  obtain ⟨added', hout', hnot'⟩ := h'.outputs
  refine ⟨⟨added ++ added', by rw [hout', hout, List.append_assoc], fun c hc => ?_⟩,
    fun k hk => h'.store k (h.store k hk)⟩
  rcases List.mem_append.mp hc with hc | hc
  · exact hnot c hc
  · -- what is stored now is stored later
    exact fun hready => hnot' c hc (hready.mono h.store)

theorem Advances.refl (s : State PublicKey Digest Signature) : Advances p s s :=
  ⟨Grows.refl s, fun _ => id, fun _ _ => rfl, rfl, rfl, rfl, rfl⟩

theorem Advances.trans (h : Advances p s s') (h' : Advances p s' s'') : Advances p s s'' :=
  ⟨h.toGrows.trans h'.toGrows, fun x hx => h.broadcast x (h'.broadcast x hx),
    fun d worker => (h'.payload d worker).trans (h.payload d worker), h'.header.trans h.header,
    h'.gcRound.trans h.gcRound, h'.consensusRound.trans h.consensusRound, h'.alive.trans h.alive⟩

/-- Only the internal state of `Core` changes. -/
theorem Advances.frame (hs : s'.store = s.store) (ho : s'.outputs = s.outputs)
    (hc : s'.currentHeader = s.currentHeader) (hg : s'.gcRound = s.gcRound)
    (hr : s'.consensusRound = s.consensusRound) (ha : s'.alive = s.alive) : Advances p s s' :=
  ⟨⟨⟨[], by simp [ho], by simp⟩, fun _ hk => hs ▸ hk⟩, fun _ hh => ho ▸ hh,
    fun _ _ => by rw [hs], hc, hg, hr, ha⟩

theorem Advances.send {o : Output PublicKey Digest Signature}
    (ho : ∀ c, o = .syncCertificate c → ¬ ParentsHeld p s.store c)
    (hb : ∀ h, o ≠ .broadcastHeader h) :
    Advances p s { s with outputs := s.outputs ++ [o] } := by
  refine ⟨⟨⟨[o], rfl, fun c hc => ho c (List.mem_singleton.mp hc).symm⟩, fun _ => id⟩,
    fun h hh => ?_, fun _ _ => rfl, rfl, rfl, rfl, rfl⟩
  exact (List.mem_append.mp hh).resolve_right fun hh => hb h (List.mem_singleton.mp hh).symm

theorem grows_write (k : StoreKey Digest) (v : StoreValue PublicKey Digest Signature) :
    Grows p s (s.write k v) := by
  refine ⟨⟨[], by simp [State.write], by simp⟩, fun k' hk' => ?_⟩
  by_cases hk : k' = k
  · subst hk
    simp [State.write]
  · simpa [State.write, Function.update_of_ne hk] using hk'

theorem Advances.write (d : Digest) (v : StoreValue PublicKey Digest Signature) :
    Advances p s (s.write (.digest d) v) :=
  ⟨grows_write _ v, fun _ => id, fun d' worker => by simp [State.write], rfl, rfl, rfl, rfl⟩

/-! ## What each function does -/

variable (p)

/-- `m` goes on from any state before. -/
def Moves {α : Type} (m : M PublicKey Digest Signature α) : Prop :=
  ∀ s₀ : State PublicKey Digest Signature,
    ⦃fun s => ⌜Advances p s₀ s⌝⦄ m
    ⦃post⟨fun _ s => ⌜Advances p s₀ s⌝, fun _ s => ⌜Advances p s₀ s⌝⟩⦄

theorem moves_send {o : Output PublicKey Digest Signature}
    (ho : ∀ c, o ≠ .syncCertificate c) (hb : ∀ h, o ≠ .broadcastHeader h) :
    Moves p (send o) := by
  intro s₀
  mvcgen [send]
  exact Advances.trans ‹_› (Advances.send (fun c hc => absurd hc (ho c)) hb)

theorem moves_markProcessing (h : Header PublicKey Digest Signature) :
    Moves p (markProcessing h) := by
  intro s₀
  mvcgen [markProcessing]
  rename_i s hi _
  exact hi.trans (Advances.frame rfl rfl rfl rfl rfl rfl)

theorem moves_writeStore (d : Digest) (v : StoreValue PublicKey Digest Signature) :
    Moves p (writeStore (.digest d) v) := by
  intro s₀
  mvcgen [writeStore]
  exact Advances.trans ‹_› (Advances.write d v)

theorem moves_getParents (h : Header PublicKey Digest Signature) : Moves p (getParents p h) := by
  intro s₀
  have hsend := fun missing => moves_send p (o := .syncParents missing h) (by simp) (by simp) s₀
  mvcgen [getParents, orReturn, hsend]

theorem moves_missingPayload (h : Header PublicKey Digest Signature) :
    Moves p (missingPayload p h) := by
  intro s₀
  have hsend := fun missing => moves_send p (o := .syncBatches missing h) (by simp) (by simp) s₀
  mvcgen [missingPayload, hsend]

theorem moves_appendVote (v : Vote PublicKey Digest Signature) : Moves p (appendVote p v) := by
  intro s₀
  mvcgen [appendVote, orReturn]
  rename_i s hi agg _
  exact hi.trans (Advances.frame rfl rfl rfl rfl rfl rfl)

theorem moves_appendCertificate (c : Certificate PublicKey Digest Signature) :
    Moves p (appendCertificate p c) := by
  intro s₀
  mvcgen [appendCertificate]
  rename_i s hi _
  exact hi.trans (Advances.frame rfl rfl rfl rfl rfl rfl)

/-- `deliver_certificate` says whether all parents are there, and suspends the certificate if
    they are not. -/
theorem deliverCertificate_moves (c : Certificate PublicKey Digest Signature)
    (s₀ : State PublicKey Digest Signature) :
    ⦃fun s => ⌜Advances p s₀ s⌝⦄ deliverCertificate p c
    ⦃post⟨fun b s => ⌜Advances p s₀ s ∧ (b = false → ¬ ParentsHeld p s₀.store c)⌝,
      fun _ s => ⌜Advances p s₀ s⌝⟩⦄ := by
  mvcgen [deliverCertificate, send]
  · simp_all
  · rename_i s hi hmissing _
    have hnot : ¬ ParentsHeld p s.store c := by
      intro hready
      refine hmissing (List.all_eq_true.mpr fun d hd => ?_)
      exact Bool.or_eq_true_iff.mpr (hready d hd)
    refine ⟨hi.trans (Advances.send (fun c' hc' => ?_) (by simp)),
      fun hready => hnot (hready.mono hi.store)⟩
    rwa [← Output.syncCertificate.inj hc']

section Nested

variable {f : Header PublicKey Digest Signature → M PublicKey Digest Signature Unit}
  (hf : ∀ h, Moves p (f h))

include hf

theorem moves_processCertificateWith (c : Certificate PublicKey Digest Signature) :
    Moves p (processCertificateWith p f c) := by
  intro s₀
  have hheader := hf c.header s₀
  have hdeliver := deliverCertificate_moves p c s₀
  have hwrite := moves_writeStore p c.digest (.certificate c) s₀
  have happend := moves_appendCertificate p c s₀
  have hparents := fun parents round =>
    moves_send p (o := .newParents parents round) (by simp) (by simp) s₀
  have hnew := moves_send p (o := .newCertificate c) (by simp) (by simp) s₀
  mvcgen [processCertificateWith, hheader, hdeliver, hwrite, happend, hparents, hnew] <;> simp_all

theorem moves_processVoteWith (v : Vote PublicKey Digest Signature) :
    Moves p (processVoteWith p f v) := by
  intro s₀
  have happend := moves_appendVote p v s₀
  have hsend := fun c : Certificate PublicKey Digest Signature =>
    moves_send p (o := .broadcastCertificate c) (by simp) (by simp) s₀
  have hcert := fun c => moves_processCertificateWith p hf c s₀
  mvcgen [processVoteWith, expect, happend, hsend, hcert]
  exact id

end Nested

variable [Ed25519 PublicKey Digest Signature]

theorem moves_createVote (h : Header PublicKey Digest Signature) : Moves p (createVote p h) := by
  intro s₀
  have hsend := fun v : Vote PublicKey Digest Signature =>
    moves_send p (o := .createdVote v) (by simp) (by simp) s₀
  mvcgen [createVote, hsend]
  rename_i s hi _ _
  exact hi.trans (Advances.frame rfl rfl rfl rfl rfl rfl)

theorem moves_processHeader (n : ℕ) (h : Header PublicKey Digest Signature) :
    Moves p (processHeader p n h) := by
  induction n generalizing h with
  | zero =>
      intro s₀
      mvcgen [processHeader]
  | succ n ih =>
      intro s₀
      have hmark := moves_markProcessing p h s₀
      have hparents := moves_getParents p h s₀
      have hpayload := moves_missingPayload p h s₀
      have hwrite := moves_writeStore p h.id (.header h) s₀
      have hcreate := moves_createVote p h s₀
      have hvote := fun v => moves_processVoteWith p ih v s₀
      have hsend := fun v : Vote PublicKey Digest Signature =>
        moves_send p (o := .sendVote v) (by simp) (by simp) s₀
      mvcgen [processHeader, orReturn, expect, hmark, hparents, hpayload, hwrite, hcreate, hvote,
        hsend]
      all_goals exact id

/-- A certificate whose parents are held is sent to consensus, unless an error ends the call. -/
theorem newCertificate_of_parentsHeld {u : Unit} (hheld : ParentsHeld p s.store c)
    (hok : (processCertificate p c).run.run s = (.ok u, s')) :
    .newCertificate c ∈ s'.outputs := by
  have hheader := moves_processHeader p recursionDepth c.header s
  have hdeliver := deliverCertificate_moves p c s
  have hwrite := moves_writeStore p c.digest (.certificate c) s
  have happend := moves_appendCertificate p c s
  have hparents := fun parents round =>
    moves_send p (o := .newParents parents round) (by simp) (by simp) s
  have hnew : ⦃fun s' => ⌜Advances p s s'⌝⦄ send (.newCertificate c)
      ⦃post⟨fun _ s' => ⌜.newCertificate c ∈ s'.outputs⌝, fun _ _ => ⌜True⌝⟩⦄ := by
    mvcgen [send]
    exact List.mem_append_right _ (List.mem_singleton.mpr rfl)
  have key : ⦃fun s' => ⌜Advances p s s'⌝⦄ processCertificate p c
      ⦃post⟨fun _ s' => ⌜.newCertificate c ∈ s'.outputs⌝, fun _ _ => ⌜True⌝⟩⦄ := by
    mvcgen [processCertificate, processCertificateWith, hheader, hdeliver, hwrite, happend,
      hparents, hnew] <;> simp_all
  have hrun := run_of_triple key s (Advances.refl s)
  rw [hok] at hrun
  exact hrun

/-! ## An iteration of the loop -/

/-- What is done first: `process_own_header` broadcasts the header, and the batch of another
    authority is stored. -/
def State.enter (s : State PublicKey Digest Signature) :
    Event PublicKey Digest Signature → State PublicKey Digest Signature
  | .ownHeader h =>
      { s with
        currentHeader := h
        votesAggregator := VotesAggregator.new
        outputs := s.outputs ++ [.broadcastHeader h] }
  | .othersBatch digest worker counts => s.write (.payload digest worker) (.accountCounts counts)
  | _ => s

theorem handle_advances (s : State PublicKey Digest Signature)
    (e : Event PublicKey Digest Signature) :
    Advances p (s.enter e) ((handle p e).run.run s).2 := by
  have hheader := fun h => moves_processHeader p recursionDepth h (s.enter e)
  have hcert := fun c : Certificate PublicKey Digest Signature =>
    moves_processCertificateWith p (moves_processHeader p recursionDepth) c (s.enter e)
  have hvote := fun v : Vote PublicKey Digest Signature =>
    moves_processVoteWith p (moves_processHeader p recursionDepth) v (s.enter e)
  cases e with
  | loopbackHeader h => exact inv_of_triple (hheader h) s (Advances.refl s)
  | loopbackCertificate c => exact inv_of_triple (hcert c) s (Advances.refl s)
  | othersBatch digest worker counts => exact Advances.refl _
  | primaryHeader h =>
      refine inv_of_triple (P := Advances p s) ?_ s (Advances.refl s)
      mvcgen [handle, sanitizeHeader, orReturn, hheader]
  | primaryVote v =>
      refine inv_of_triple (P := Advances p s) ?_ s (Advances.refl s)
      mvcgen [handle, processVote, sanitizeVote, orReturn, hvote]
  | primaryCertificate c =>
      refine inv_of_triple (P := Advances p s) ?_ s (Advances.refl s)
      mvcgen [handle, processCertificate, sanitizeCertificate, orReturn, hcert]
  | ownHeader h =>
      refine inv_of_triple (P := fun s' => s' = s) ?_ s rfl
      mvcgen [handle, processOwnHeader, send, hheader]
      rename_i s' hs _ _
      subst hs
      exact Advances.refl _

/-- What an iteration of the loop does to the state. -/
structure StepsTo (s : State PublicKey Digest Signature) (e : Event PublicKey Digest Signature)
    (round : ℕ) (s' : State PublicKey Digest Signature) : Prop extends Grows p s s' where
  broadcast : ∀ h, .broadcastHeader h ∈ s'.outputs →
    .broadcastHeader h ∈ s.outputs ∨ e = .ownHeader h
  payload : ∀ d worker, (s'.store (.payload d worker)).isSome = true →
    (s.store (.payload d worker)).isSome = true ∨ ∃ counts, e = .othersBatch d worker counts
  header : s'.currentHeader = currentAfter s.currentHeader e
  gcRound : s'.gcRound = s.gcRound ∨ p.gcDepth < round ∧ s'.gcRound = round - p.gcDepth
  consensusRound : s'.consensusRound = s.consensusRound ∨ s'.consensusRound = round

omit [Ed25519 PublicKey Digest Signature] in
theorem stepsTo_enter (s : State PublicKey Digest Signature)
    (e : Event PublicKey Digest Signature) (round : ℕ) : StepsTo p s e round (s.enter e) := by
  cases e with
  | ownHeader h =>
      refine ⟨⟨⟨[.broadcastHeader h], rfl, by simp⟩, fun _ => id⟩, fun h' hh => ?_,
        fun _ _ => Or.inl, rfl, Or.inl rfl, Or.inl rfl⟩
      refine (List.mem_append.mp hh).imp_right fun hh => ?_
      rw [Output.broadcastHeader.inj (List.mem_singleton.mp hh)]
  | othersBatch digest worker counts =>
      refine ⟨grows_write _ _, fun _ => Or.inl, fun d worker' hd => ?_, rfl, Or.inl rfl, Or.inl rfl⟩
      by_cases hk : (StoreKey.payload d worker' : StoreKey Digest) = .payload digest worker
      · obtain ⟨rfl, rfl⟩ := StoreKey.payload.inj hk
        exact Or.inr ⟨counts, rfl⟩
      · exact Or.inl ((Function.update_of_ne hk _ s.store) ▸ hd)
  | _ => exact ⟨Grows.refl s, fun _ => Or.inl, fun _ _ => Or.inl, rfl, Or.inl rfl, Or.inl rfl⟩

theorem step_advances (s : State PublicKey Digest Signature)
    (e : Event PublicKey Digest Signature) (round : ℕ) :
    StepsTo p s e round (step p s e round) := by
  have hadvances := handle_advances p s e
  have henter := stepsTo_enter p s e round
  have hkeep : StepsTo p s e round ((handle p e).run.run s).2 :=
    ⟨henter.toGrows.trans hadvances.toGrows,
      fun h hh => henter.broadcast h (hadvances.broadcast h hh),
      fun d worker hd => henter.payload d worker (hadvances.payload d worker ▸ hd),
      hadvances.header.trans henter.header, hadvances.gcRound ▸ henter.gcRound,
      hadvances.consensusRound ▸ henter.consensusRound⟩
  refine step_of_handle p hkeep (fun s' hs' => ?_) (fun s' hs' => ?_) (fun s' hs' => hs')
  · exact ⟨⟨hs'.outputs, hs'.store⟩, hs'.broadcast, hs'.payload, hs'.header, hs'.gcRound,
      hs'.consensusRound⟩
  · refine ⟨⟨by simpa using hs'.outputs, by simpa using hs'.store⟩, by simpa using hs'.broadcast,
      by simpa using hs'.payload, by simpa using hs'.header, ?_, ?_⟩
    · unfold State.cleanup
      split
      · exact Or.inr ⟨‹_›, rfl⟩
      · exact hs'.gcRound
    · unfold State.cleanup
      split <;> exact Or.inr rfl

end DagBft.Core
