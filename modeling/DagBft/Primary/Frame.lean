/-
  What no function of `Core` does: none takes an output back (`KeepsOutput`), and none
  runs out of fuel (`processHeader_fuel`, `handle_fuel`).

  The recursion of `process_header` through `process_vote` and `process_certificate` is on
  the current header, which is marked as being processed when it is entered, and
  `process_certificate` does not process a marked header again.
-/
import DagBft.Lib.Triple
import DagBft.Primary.Core

namespace DagBft.Core

open Std.Do

set_option mvcgen.warning false

variable {PublicKey Digest Signature : Type} [LinearOrder Digest]

/-- A property of the headers being processed, of the current header and of the outputs
    that more outputs do not break. -/
def Stable (I : State PublicKey Digest Signature → Prop) : Prop :=
  ∀ s s', I s → s'.processing = s.processing → s'.currentHeader = s.currentHeader →
    s.outputs ⊆ s'.outputs → I s'

theorem stable_true : Stable fun _ : State PublicKey Digest Signature => True :=
  fun _ _ _ _ _ _ => trivial

/-- `m` keeps what is stable, and does not run out of fuel. -/
def Quiet {α : Type} (m : M PublicKey Digest Signature α) : Prop :=
  ∀ I : State PublicKey Digest Signature → Prop, Stable I →
    ⦃fun s => ⌜I s⌝⦄ m ⦃post⟨fun _ s => ⌜I s⌝, fun e s => ⌜e ≠ .fuel ∧ I s⌝⟩⦄

theorem quiet_send (o : Output PublicKey Digest Signature) : Quiet (send o) := by
  intro I hI
  mvcgen [send]
  rename_i s hi _
  exact hI s _ hi rfl rfl (List.subset_append_left _ _)

theorem quiet_writeStore (k : StoreKey Digest) (v : StoreValue PublicKey Digest Signature) :
    Quiet (writeStore k v) := by
  intro I hI
  mvcgen [writeStore]
  rename_i s hi _
  exact hI s _ hi rfl rfl (List.Subset.refl _)

/-- `m` does not take an output back. -/
def KeepsOutput (o : Output PublicKey Digest Signature) {α : Type}
    (m : M PublicKey Digest Signature α) : Prop :=
  ⦃fun s => ⌜o ∈ s.outputs⌝⦄ m ⦃post⟨fun _ s => ⌜o ∈ s.outputs⌝, fun _ s => ⌜o ∈ s.outputs⌝⟩⦄

theorem stable_mem_outputs (o : Output PublicKey Digest Signature) :
    Stable fun s : State PublicKey Digest Signature => o ∈ s.outputs :=
  fun _ _ hmem _ _ hsub => hsub hmem

theorem Quiet.keepsOutput (o : Output PublicKey Digest Signature) {α : Type}
    {m : M PublicKey Digest Signature α} (hm : Quiet m) : KeepsOutput o m := by
  have key := hm _ (stable_mem_outputs o)
  unfold KeepsOutput
  mvcgen [key]
  · exact id
  · exact fun _ => id

theorem keepsOutput_markProcessing (o : Output PublicKey Digest Signature)
    (h : Header PublicKey Digest Signature) :
    KeepsOutput o (markProcessing h) := by
  unfold KeepsOutput
  mvcgen [markProcessing]

/-- Started where `I` holds, `m` does not run out of fuel. -/
def NoFuel (I : State PublicKey Digest Signature → Prop) {α : Type}
    (m : M PublicKey Digest Signature α) : Prop :=
  ⦃fun s => ⌜I s⌝⦄ m ⦃post⟨fun _ _ => ⌜True⌝, fun e _ => ⌜e ≠ .fuel⌝⟩⦄

/-- `NoFuel` of what does not call `process_header`. -/
theorem Quiet.noFuel {α : Type} {m : M PublicKey Digest Signature α} (hm : Quiet m) :
    NoFuel (fun _ => True) m := by
  have key := hm (fun _ => True) fun _ _ _ _ _ _ => trivial
  unfold NoFuel
  mvcgen [key]
  exact id

theorem NoFuel.weaken {I J : State PublicKey Digest Signature → Prop} {α : Type}
    {m : M PublicKey Digest Signature α} (hm : NoFuel J m) (hIJ : ∀ s, I s → J s) : NoFuel I m :=
  fun s hs => hm s (hIJ s hs)

/-- The current header is being processed. -/
def Marked (s : State PublicKey Digest Signature) : Prop :=
  s.currentHeader.id ∈ s.processing s.currentHeader.round

theorem stable_marked : Stable (Marked : State PublicKey Digest Signature → Prop) := by
  intro s s' hs hp hc _
  unfold Marked at hs ⊢
  rw [hp, hc]
  exact hs

variable [LinearOrder PublicKey]

/-- The round of a header with parents is not 0. -/
theorem round_ne_zero_of_checkParents {p : Params PublicKey}
    {h : Header PublicKey Digest Signature}
    {parents : List (Certificate PublicKey Digest Signature)} {stake : ℕ} (hne : parents ≠ [])
    (hok : checkParents p h parents 0 = .ok stake) :
    h.round ≠ 0 := by
  cases parents with
  | nil => exact absurd rfl hne
  | cons x parents =>
      intro h0
      have hfalse : ¬ x.round + 1 = h.round := by omega
      simp [checkParents, ensure, hfalse, bind, Except.bind] at hok

variable (p : Params PublicKey)

theorem quiet_missingPayload (h : Header PublicKey Digest Signature) :
    Quiet (missingPayload p h) := by
  intro I hI
  have hsend := fun missing => quiet_send (.syncBatches missing h) I hI
  mvcgen [missingPayload, hsend]

/-- A certificate that is assembled is for the current header. -/
theorem appendVote_spec (v : Vote PublicKey Digest Signature)
    {I : State PublicKey Digest Signature → Prop} (hI : Stable I) :
    ⦃fun s => ⌜I s⌝⦄ appendVote p v
    ⦃post⟨fun o s => ⌜I s ∧ ∀ c, o = some c → c.header = s.currentHeader⌝,
      fun e s => ⌜e ≠ .fuel ∧ I s⌝⟩⦄ := by
  mvcgen [appendVote, orReturn]
  · rename_i s hi agg hok
    refine ⟨hI s _ hi rfl rfl (List.Subset.refl _), ?_⟩
    rintro c hc
    obtain ⟨agg', o⟩ := agg
    obtain rfl : o = some c := hc
    exact VotesAggregator.header_of_append hok
  · simp_all

variable [AsBytes PublicKey] [AsBytes Digest] [Sha512 Digest]

theorem quiet_appendCertificate (c : Certificate PublicKey Digest Signature) :
    Quiet (appendCertificate p c) := by
  intro I hI
  mvcgen [appendCertificate]
  rename_i s hi _
  exact hI s _ hi rfl rfl (List.Subset.refl _)

variable [Inhabited PublicKey] [Inhabited Digest] [Inhabited Signature]

theorem quiet_getParents (h : Header PublicKey Digest Signature) : Quiet (getParents p h) := by
  intro I hI
  have hsend := fun missing => quiet_send (.syncParents missing h) I hI
  mvcgen [getParents, orReturn, hsend]
  simp_all

theorem quiet_deliverCertificate (c : Certificate PublicKey Digest Signature) :
    Quiet (deliverCertificate p c) := by
  intro I hI
  have hsend := quiet_send (.syncCertificate c) I hI
  mvcgen [deliverCertificate, hsend]

/-! ## Outputs are never taken back -/

variable (o : Output PublicKey Digest Signature)

theorem keepsOutput_processCertificateWith
    {f : Header PublicKey Digest Signature → M PublicKey Digest Signature Unit}
    (hf : ∀ h, KeepsOutput o (f h)) (c : Certificate PublicKey Digest Signature) :
    KeepsOutput o (processCertificateWith p f c) := by
  have hdeliver := (quiet_deliverCertificate p c).keepsOutput o
  have hwrite := (quiet_writeStore (.digest c.digest) (.certificate c)).keepsOutput o
  have happend := (quiet_appendCertificate p c).keepsOutput o
  have hsend := fun o' : Output PublicKey Digest Signature => (quiet_send o').keepsOutput o
  unfold KeepsOutput at hf hdeliver hwrite happend hsend ⊢
  mvcgen [processCertificateWith, hf, hdeliver, hwrite, happend, hsend]

theorem keepsOutput_processVoteWith
    {f : Header PublicKey Digest Signature → M PublicKey Digest Signature Unit}
    (hf : ∀ h, KeepsOutput o (f h)) (v : Vote PublicKey Digest Signature) :
    KeepsOutput o (processVoteWith p f v) := by
  have happend := appendVote_spec p v (stable_mem_outputs o)
  have hsend := fun o' : Output PublicKey Digest Signature => (quiet_send o').keepsOutput o
  have hcert := keepsOutput_processCertificateWith p o hf
  unfold KeepsOutput at hsend hcert ⊢
  mvcgen [processVoteWith, expect, happend, hsend, hcert] <;> simp_all

variable [Ed25519 PublicKey Digest Signature]

omit [Inhabited PublicKey] [Inhabited Digest] [Inhabited Signature] in
theorem quiet_createVote (h : Header PublicKey Digest Signature) : Quiet (createVote p h) := by
  intro I hI
  mvcgen [createVote, send]
  rename_i s hi _ _ _
  exact hI s _ hi rfl rfl (List.subset_append_left _ _)

theorem keepsOutput_processHeader (n : ℕ) (h : Header PublicKey Digest Signature) :
    KeepsOutput o (processHeader p n h) := by
  induction n generalizing h with
  | zero =>
      unfold KeepsOutput
      mvcgen [processHeader]
  | succ n ih =>
      have hmark := keepsOutput_markProcessing o h
      have hparents := (quiet_getParents p h).keepsOutput o
      have hpayload := (quiet_missingPayload p h).keepsOutput o
      have hwrite := (quiet_writeStore (.digest h.id) (.header h)).keepsOutput o
      have hcreate := (quiet_createVote p h).keepsOutput o
      have hvote := keepsOutput_processVoteWith p o ih
      have hsend := fun o' : Output PublicKey Digest Signature => (quiet_send o').keepsOutput o
      unfold KeepsOutput at hmark hparents hpayload hwrite hcreate hvote hsend ⊢
      mvcgen [processHeader, orReturn, expect, hmark, hparents, hpayload, hwrite, hcreate, hvote,
        hsend]
      · exact id
      · exact id

theorem keepsOutput_handle (e : Event PublicKey Digest Signature) :
    KeepsOutput o (handle p e) := by
  have hheader := keepsOutput_processHeader p o recursionDepth
  have hvote : ∀ v, KeepsOutput o (processVote p v) := keepsOutput_processVoteWith p o hheader
  have hcert : ∀ c, KeepsOutput o (processCertificate p c) :=
    keepsOutput_processCertificateWith p o hheader
  have hsend := fun o' : Output PublicKey Digest Signature => (quiet_send o').keepsOutput o
  cases e with
  | loopbackHeader h => exact hheader h
  | loopbackCertificate c => exact hcert c
  | othersBatch digest worker counts => exact (quiet_writeStore _ _).keepsOutput o
  | primaryHeader h =>
      unfold KeepsOutput at hheader ⊢
      mvcgen [handle, sanitizeHeader, orReturn, hheader]
  | primaryVote v =>
      unfold KeepsOutput at hvote ⊢
      mvcgen [handle, sanitizeVote, orReturn, hvote]
  | primaryCertificate c =>
      unfold KeepsOutput at hcert ⊢
      mvcgen [handle, sanitizeCertificate, orReturn, hcert]
  | ownHeader h =>
      unfold KeepsOutput at hheader hsend ⊢
      mvcgen [handle, processOwnHeader, hheader, hsend]

/-! ## The fuel is enough -/

omit [Ed25519 PublicKey Digest Signature] in
theorem noFuel_processCertificateWith {I : State PublicKey Digest Signature → Prop}
    {f : Header PublicKey Digest Signature → M PublicKey Digest Signature Unit}
    (c : Certificate PublicKey Digest Signature)
    (hf : NoFuel (fun s => I s ∧ c.header.id ∉ s.processing c.header.round) (f c.header)) :
    NoFuel I (processCertificateWith p f c) := by
  have hdeliver := (quiet_deliverCertificate p c).noFuel
  have hwrite := (quiet_writeStore (.digest c.digest) (.certificate c)).noFuel
  have happend := (quiet_appendCertificate p c).noFuel
  have hsend := fun o : Output PublicKey Digest Signature => (quiet_send o).noFuel
  unfold NoFuel at hf hdeliver hwrite happend hsend ⊢
  mvcgen [processCertificateWith, hf, hdeliver, hwrite, happend, hsend]

omit [Ed25519 PublicKey Digest Signature] in
/-- `process_vote` calls for the current header only, and only if it is not marked. -/
theorem noFuel_processVoteWith {I : State PublicKey Digest Signature → Prop} (hI : Stable I)
    {f : Header PublicKey Digest Signature → M PublicKey Digest Signature Unit}
    (hf : ∀ h, NoFuel (fun s => (I s ∧ h = s.currentHeader) ∧ h.id ∉ s.processing h.round) (f h))
    (v : Vote PublicKey Digest Signature) : NoFuel I (processVoteWith p f v) := by
  have happend := appendVote_spec p v hI
  have hstable : ∀ c : Certificate PublicKey Digest Signature,
      Stable fun s => I s ∧ c.header = s.currentHeader :=
    fun c s s' hs hp hc ho => ⟨hI s s' hs.1 hp hc ho, hs.2.trans hc.symm⟩
  have hsend := fun c : Certificate PublicKey Digest Signature =>
    quiet_send (.broadcastCertificate c) _ (hstable c)
  have hcert := fun c => noFuel_processCertificateWith p c (hf c.header)
  unfold NoFuel at hcert ⊢
  mvcgen [processVoteWith, expect, happend, hsend, hcert]
  · rename_i hs
    exact ⟨hs.1, hs.2 _ rfl⟩
  all_goals simp +contextual

theorem noFuel_processHeader {I J : State PublicKey Digest Signature → Prop} (hJ : Stable J) {n : ℕ}
    {h : Header PublicKey Digest Signature}
    (hmark : ∀ s, I s → J { s with
      processing := Function.update s.processing h.round (h.id :: s.processing h.round) })
    (hvote : ∀ v, NoFuel J (processVoteWith p (processHeader p n) v)) :
    NoFuel I (processHeader p (n + 1) h) := by
  have hmark : ⦃fun s => ⌜I s⌝⦄ markProcessing h
      ⦃post⟨fun _ s => ⌜J s⌝, fun e s => ⌜e ≠ .fuel ∧ J s⌝⟩⦄ := by
    mvcgen [markProcessing]
    exact hmark _ ‹_›
  have hparents := quiet_getParents p h J hJ
  have hpayload := quiet_missingPayload p h J hJ
  have hwrite := quiet_writeStore (.digest h.id) (.header h) J hJ
  have hcreate := quiet_createVote p h J hJ
  have hsend := fun o : Output PublicKey Digest Signature => quiet_send o J hJ
  unfold NoFuel at hvote ⊢
  mvcgen [processHeader, orReturn, expect, hmark, hparents, hpayload, hwrite, hcreate, hvote,
        hsend]
  all_goals simp +contextual

/-- Processing the current header does not come back to `process_header`. -/
theorem noFuel_processHeader_current (h : Header PublicKey Digest Signature) :
    NoFuel (fun s => (True ∧ h = s.currentHeader) ∧ h.id ∉ s.processing h.round)
      (processHeader p 1 h) := by
  refine noFuel_processHeader p stable_marked ?_ ?_
  · rintro s ⟨⟨-, rfl⟩, -⟩
    simp [Marked]
  · refine noFuel_processVoteWith p stable_marked fun h' => ?_
    unfold NoFuel
    mvcgen [processHeader]
    rename_i s hs
    obtain ⟨⟨hmarked, rfl⟩, hnot⟩ := hs
    exact absurd hmarked hnot

/-- The fuel is enough for every header and in every state. -/
theorem processHeader_fuel (h : Header PublicKey Digest Signature) :
    NoFuel (fun _ => True) (processHeader p recursionDepth h) :=
  noFuel_processHeader p stable_true (fun _ _ => trivial)
    (noFuel_processVoteWith p stable_true (noFuel_processHeader_current p))

theorem noFuel_processVote (v : Vote PublicKey Digest Signature) :
    NoFuel (fun _ => True) (processVote p v) :=
  noFuel_processVoteWith p stable_true
    (fun h => (processHeader_fuel p h).weaken fun _ _ => trivial) v

theorem noFuel_processCertificate (c : Certificate PublicKey Digest Signature) :
    NoFuel (fun _ => True) (processCertificate p c) :=
  noFuel_processCertificateWith p c ((processHeader_fuel p c.header).weaken fun _ _ => trivial)

theorem noFuel_processOwnHeader (h : Header PublicKey Digest Signature) :
    NoFuel (fun _ => True) (processOwnHeader p h) := by
  have hsend := (quiet_send (.broadcastHeader h)).noFuel
  have hheader := processHeader_fuel p h
  unfold NoFuel at hsend hheader ⊢
  mvcgen [processOwnHeader, hsend, hheader]

theorem noFuel_handle (e : Event PublicKey Digest Signature) :
    NoFuel (fun _ => True) (handle p e) := by
  cases e with
  | primaryHeader h =>
      have hheader := processHeader_fuel p h
      unfold NoFuel at hheader ⊢
      mvcgen [handle, sanitizeHeader, orReturn, hheader] <;> simp
  | primaryVote v =>
      have hvote := noFuel_processVote p v
      unfold NoFuel at hvote ⊢
      mvcgen [handle, sanitizeVote, orReturn, hvote] <;> simp
  | primaryCertificate c =>
      have hcert := noFuel_processCertificate p c
      unfold NoFuel at hcert ⊢
      mvcgen [handle, sanitizeCertificate, orReturn, hcert] <;> simp
  | loopbackHeader h => exact processHeader_fuel p h
  | loopbackCertificate c => exact noFuel_processCertificate p c
  | ownHeader h => exact noFuel_processOwnHeader p h
  | othersBatch digest worker counts => exact (quiet_writeStore _ _).noFuel

/-- No event makes `Core` run out of fuel, in any state. -/
theorem handle_fuel (e : Event PublicKey Digest Signature)
    (s : State PublicKey Digest Signature) : ((handle p e).run.run s).1 ≠ .error .fuel := by
  have key := run_of_triple (noFuel_handle p e) s trivial
  generalize (handle p e).run.run s = x at key ⊢
  obtain ⟨result, s'⟩ := x
  rintro rfl
  exact key rfl

end DagBft.Core
