/-
  Before `Core` sends a certificate to consensus it has sent every parent of it, the
  genesis certificates apart, provided that the parents of what it accepts are digests of
  certificates.

  The argument goes through the store: `deliver_certificate` finds the parents there, and
  a certificate that is stored is sent to consensus in the same call (`DeliveryInv`).
  Under the digest of a certificate there is no header, as long as the hash separates
  headers from certificates. Headers that are certified list digests of certificates, but
  a certificate that passes for a genesis certificate is not looked into: `delivery_fails`
  is a run with one that lists the id of a header.
-/
import DagBft.Primary.Frame

namespace DagBft.Core

open Std.Do

set_option mvcgen.warning false

variable {PublicKey Digest Signature : Type} [LinearOrder PublicKey] [LinearOrder Digest]
  [AsBytes PublicKey] [AsBytes Digest] [Sha512 Digest]

/-- The parents of the certificate are digests of certificates. -/
def Good (c : Certificate PublicKey Digest Signature) : Prop :=
  ∀ d ∈ c.header.parents.toList, ∃ c' : Certificate PublicKey Digest Signature, c'.digest = d

/-- The id is the digest, unless the header cannot be processed to its end. -/
def Identified (h : Header PublicKey Digest Signature) : Prop := h.digest = h.id ∨ h.round = 0

/-- The waiters are given identified headers and good certificates. -/
def Waitable : Output PublicKey Digest Signature → Prop
  | .syncBatches _ h => Identified h
  | .syncParents _ h => Identified h
  | .syncCertificate c => Good c ∧ Identified c.header
  | _ => True

/-- What may be stored under a digest, and which certificates were sent. -/
def Stored (outputs : List (Output PublicKey Digest Signature)) (d : Digest) :
    StoreValue PublicKey Digest Signature → Prop
  | .header _ => ∃ h : Header PublicKey Digest Signature, h.digest = d
  | .certificate c => c.digest = d ∧ .newCertificate c ∈ outputs
  | .accountCounts _ => False

variable [Inhabited PublicKey] [Inhabited Digest] [Inhabited Signature]

/-- Every parent of the certificate is genesis or among the outputs. -/
def ParentsSent (p : Params PublicKey) (c : Certificate PublicKey Digest Signature)
    (outputs : List (Output PublicKey Digest Signature)) : Prop :=
  ∀ d ∈ c.header.parents.toList,
    (∃ g ∈ (Certificate.genesis p.committee : List (Certificate PublicKey Digest Signature)),
      g.digest = d) ∨
    ∃ c' : Certificate PublicKey Digest Signature, c'.digest = d ∧ .newCertificate c' ∈ outputs

/-- Every certificate that is sent to consensus comes after its parents. -/
def Causal (p : Params PublicKey) (outputs : List (Output PublicKey Digest Signature)) : Prop :=
  ∀ pre c post, outputs = pre ++ .newCertificate c :: post → ParentsSent p c pre

/-- The invariant. The certificates in `unsent` are stored already. -/
structure DeliveryInv (p : Params PublicKey) (unsent : List (Output PublicKey Digest Signature))
    (s : State PublicKey Digest Signature) : Prop where
  stored : ∀ d v, s.store (.digest d) = some v → Stored (s.outputs ++ unsent) d v
  waitable : ∀ o ∈ s.outputs, Waitable o
  current : Identified s.currentHeader
  causal : Causal p s.outputs

variable {p : Params PublicKey} {s s' : State PublicKey Digest Signature}
  {unsent : List (Output PublicKey Digest Signature)} {h : Header PublicKey Digest Signature}
  {c : Certificate PublicKey Digest Signature}

omit [LinearOrder PublicKey] [Inhabited PublicKey] [Inhabited Digest] [Inhabited Signature] in
theorem Stored.mono {outputs outputs' : List (Output PublicKey Digest Signature)} {d : Digest}
    {v : StoreValue PublicKey Digest Signature} (hv : Stored outputs d v)
    (hsub : outputs ⊆ outputs') : Stored outputs' d v := by
  cases v with
  | header h => exact hv
  | certificate c => exact ⟨hv.1, hsub hv.2⟩
  | accountCounts counts => exact hv

theorem ParentsSent.mono {outputs outputs' : List (Output PublicKey Digest Signature)}
    (hc : ParentsSent p c outputs) (hsub : outputs ⊆ outputs') : ParentsSent p c outputs' :=
  fun d hd => (hc d hd).imp_right fun ⟨c', hdig, hmem⟩ => ⟨c', hdig, hsub hmem⟩

/-- One more output: if it is a certificate then its parents were sent. -/
theorem Causal.append {outputs : List (Output PublicKey Digest Signature)}
    (hc : Causal p outputs) {o : Output PublicKey Digest Signature}
    (ho : ∀ c, o = .newCertificate c → ParentsSent p c outputs) : Causal p (outputs ++ [o]) := by
  intro pre c post he
  rcases List.append_eq_append_iff.mp he with ⟨l, hpre, hl⟩ | ⟨l, hout, hl⟩
  · cases l with
    | nil =>
        simp only [List.nil_append, List.cons.injEq] at hl
        rw [hpre, List.append_nil]
        exact ho c hl.1
    | cons x l => simp at hl
  · cases l with
    | nil =>
        simp only [List.nil_append, List.cons.injEq] at hl
        rw [List.append_nil] at hout
        rw [← hout]
        exact ho c hl.1.symm
    | cons x l =>
        simp only [List.cons_append, List.cons.injEq] at hl
        rw [← hl.1] at hout
        exact hc pre c l hout

theorem DeliveryInv.frame (hi : DeliveryInv p unsent s) (hs : s'.store = s.store)
    (hc : s'.currentHeader = s.currentHeader) (ho : s'.outputs = s.outputs) :
    DeliveryInv p unsent s' where
  stored := by
    rw [hs, ho]
    exact hi.stored
  waitable := by
    rw [ho]
    exact hi.waitable
  current := hc ▸ hi.current
  causal := ho ▸ hi.causal

/-- Sending anything but a certificate to consensus. -/
theorem DeliveryInv.send (hi : DeliveryInv p unsent s) {o : Output PublicKey Digest Signature}
    (hne : ∀ c, o ≠ .newCertificate c) (ho : Waitable o) :
    DeliveryInv p unsent { s with outputs := s.outputs ++ [o] } where
  stored d v hv := (hi.stored d v hv).mono (by simp)
  waitable := by
    intro o' ho'
    rcases List.mem_append.mp ho' with ho' | ho'
    · exact hi.waitable o' ho'
    · rwa [List.mem_singleton.mp ho']
  current := hi.current
  causal := hi.causal.append fun c hc => absurd hc (hne c)

/-- Sending the certificate that was stored. -/
theorem DeliveryInv.deliver (hi : DeliveryInv p [.newCertificate c] s)
    (hc : ParentsSent p c s.outputs) :
    DeliveryInv p [] { s with outputs := s.outputs ++ [.newCertificate c] } where
  stored d v hv := by
    rw [List.append_nil]
    exact hi.stored d v hv
  waitable := by
    intro o' ho'
    rcases List.mem_append.mp ho' with ho' | ho'
    · exact hi.waitable o' ho'
    · rw [List.mem_singleton.mp ho']
      trivial
  current := hi.current
  causal := by
    refine hi.causal.append fun c' hc' => ?_
    rw [← Output.newCertificate.inj hc']
    exact hc

/-- Storing a value under a digest. -/
theorem DeliveryInv.write (hi : DeliveryInv p [] s) {d : Digest}
    {v : StoreValue PublicKey Digest Signature} (hv : Stored (s.outputs ++ unsent) d v) :
    DeliveryInv p unsent (s.write (.digest d) v) where
  stored := by
    intro d' v' hv'
    by_cases hd : d' = d
    · subst hd
      simp only [State.write, Function.update_self, Option.some.injEq] at hv'
      exact hv' ▸ hv
    · have hne : StoreKey.digest d' ≠ StoreKey.digest d := fun he => hd (StoreKey.digest.inj he)
      simp only [State.write, Function.update_of_ne hne] at hv'
      exact (hi.stored d' v' hv').mono (by simp [State.write])
  waitable := hi.waitable
  current := hi.current
  causal := hi.causal

/-- What is stored under a payload key does not matter. -/
theorem DeliveryInv.writePayload (hi : DeliveryInv p unsent s) (d : Digest) (worker : ℕ)
    (v : StoreValue PublicKey Digest Signature) :
    DeliveryInv p unsent (s.write (.payload d worker) v) where
  stored := by
    intro d' v' hv'
    have hne : StoreKey.digest d' ≠ StoreKey.payload d worker := by simp
    simp only [State.write, Function.update_of_ne hne] at hv'
    exact hi.stored d' v' hv'
  waitable := hi.waitable
  current := hi.current
  causal := hi.causal

/-! ## What each function keeps -/

/-- `Core` itself assembled a certificate that is not good. -/
def Broken (s : State PublicKey Digest Signature) : Prop :=
  ∃ c, .broadcastCertificate c ∈ s.outputs ∧ ¬ Good c

/-- The invariant, as long as what `Core` assembles is good. -/
def Sound (p : Params PublicKey) (unsent : List (Output PublicKey Digest Signature))
    (s : State PublicKey Digest Signature) : Prop :=
  Broken s ∨ DeliveryInv p unsent s

theorem Sound.next {unsent' : List (Output PublicKey Digest Signature)} (hi : Sound p unsent s)
    (hsub : s.outputs ⊆ s'.outputs)
    (himp : DeliveryInv p unsent s → DeliveryInv p unsent' s') : Sound p unsent' s' :=
  Or.imp (fun ⟨c, hc, hgood⟩ => ⟨c, hsub hc, hgood⟩) himp hi

theorem Sound.send (hi : Sound p unsent s) {o : Output PublicKey Digest Signature}
    (hne : ∀ c, o ≠ .newCertificate c) (ho : Waitable o) :
    Sound p unsent { s with outputs := s.outputs ++ [o] } :=
  hi.next (List.subset_append_left _ _) fun hd => hd.send hne ho

variable (p)

/-- `m` keeps the invariant, whether or not it returns an error. -/
def KeepsDelivery {α : Type} (m : M PublicKey Digest Signature α) : Prop :=
  ⦃fun s => ⌜Sound p [] s⌝⦄ m ⦃post⟨fun _ s => ⌜Sound p [] s⌝, fun _ s => ⌜Sound p [] s⌝⟩⦄

theorem keepsDelivery_send {o : Output PublicKey Digest Signature}
    (hne : ∀ c, o ≠ .newCertificate c) (ho : Waitable o) : KeepsDelivery p (send o) := by
  unfold KeepsDelivery
  mvcgen [send]
  exact Sound.send ‹_› hne ho

theorem keepsDelivery_markProcessing (h : Header PublicKey Digest Signature) :
    KeepsDelivery p (markProcessing h) := by
  unfold KeepsDelivery
  mvcgen [markProcessing]
  rename_i s hi _
  exact hi.next (List.Subset.refl _) fun hd => hd.frame rfl rfl rfl

theorem keepsDelivery_getParents (hid : Identified h) : KeepsDelivery p (getParents p h) := by
  have hsend : ∀ missing, KeepsDelivery p (send (.syncParents missing h)) :=
    fun _ => keepsDelivery_send p (by simp) hid
  unfold KeepsDelivery at hsend ⊢
  mvcgen [getParents, orReturn, hsend]

theorem keepsDelivery_missingPayload (hid : Identified h) :
    KeepsDelivery p (missingPayload p h) := by
  have hsend : ∀ missing, KeepsDelivery p (send (.syncBatches missing h)) :=
    fun _ => keepsDelivery_send p (by simp) hid
  unfold KeepsDelivery at hsend ⊢
  mvcgen [missingPayload, hsend]

/-- A header may be stored under its digest. -/
theorem keepsDelivery_writeHeader (hid : h.digest = h.id) :
    KeepsDelivery p (writeStore (.digest h.id) (.header h)) := by
  unfold KeepsDelivery
  mvcgen [writeStore]
  rename_i s hi _
  exact hi.next (List.Subset.refl _) fun hd => hd.write (v := .header h) ⟨h, hid⟩

theorem appendVote_delivery (v : Vote PublicKey Digest Signature) :
    ⦃fun s => ⌜Sound p [] s⌝⦄ appendVote p v
    ⦃post⟨fun o s => ⌜Sound p [] s ∧ ∀ c, o = some c → Identified c.header ∨ Broken s⌝,
      fun _ s => ⌜Sound p [] s⌝⟩⦄ := by
  mvcgen [appendVote, orReturn]
  rename_i s hi agg hok
  refine ⟨hi.next (List.Subset.refl _) fun hd => hd.frame rfl rfl rfl, ?_⟩
  rintro c hc
  obtain ⟨agg', o⟩ := agg
  obtain rfl : o = some c := hc
  rw [VotesAggregator.header_of_append hok]
  exact (Or.symm hi).imp_left fun hd => hd.current

/-! ## Delivering a certificate -/

/-- The certificate is stored, its parents are sent and it is not. -/
def Delivering (c : Certificate PublicKey Digest Signature)
    (s : State PublicKey Digest Signature) : Prop :=
  Broken s ∨ DeliveryInv p [.newCertificate c] s ∧ ParentsSent p c s.outputs

/-- What `deliver_certificate` finds in the store under a digest of a certificate is a
    certificate that was sent. -/
theorem parentsSent_of_stored
    (hsep : ∀ (h : Header PublicKey Digest Signature) (c : Certificate PublicKey Digest Signature),
      h.digest ≠ c.digest) (hi : DeliveryInv p [] s) (hgood : Good c)
    (hall : (c.header.parents.toList.all fun d =>
      (findGenesis p d : Option (Certificate PublicKey Digest Signature)).isSome ||
        (s.store (.digest d)).isSome) = true) :
    ParentsSent p c s.outputs := by
  intro d hd
  have hor := List.all_eq_true.mp hall d hd
  rcases Bool.or_eq_true_iff.mp hor with hgen | hsto
  · obtain ⟨g, hg⟩ := Option.isSome_iff_exists.mp hgen
    exact Or.inl ⟨g, List.mem_of_find?_eq_some hg, by simpa using List.find?_some hg⟩
  · obtain ⟨v, hv⟩ := Option.isSome_iff_exists.mp hsto
    obtain ⟨c', hc'⟩ := hgood d hd
    have hstored := hi.stored d v hv
    rw [List.append_nil] at hstored
    cases v with
    | header h =>
        obtain ⟨h', hh'⟩ := hstored
        exact absurd (hh'.trans hc'.symm) (hsep h' c')
    | certificate c'' => exact Or.inr ⟨c'', hstored.1, hstored.2⟩
    | accountCounts counts => exact hstored.elim

/-- From the store to consensus. -/
theorem delivering_write (c : Certificate PublicKey Digest Signature) :
    ⦃fun s => ⌜Sound p [] s ∧ (Broken s ∨ ParentsSent p c s.outputs)⌝⦄
    writeStore (.digest c.digest) (.certificate c)
    ⦃post⟨fun _ s => ⌜Delivering p c s⌝, fun _ s => ⌜Sound p [] s⌝⟩⦄ := by
  mvcgen [writeStore]
  rename_i s hi _
  rcases hi with ⟨hbroken | hd, hparents⟩
  · exact Or.inl hbroken
  · refine hparents.imp_right fun hsent => ⟨hd.write (v := .certificate c) ⟨rfl, by simp⟩, hsent⟩

theorem delivering_append (c : Certificate PublicKey Digest Signature) :
    ⦃fun s => ⌜Delivering p c s⌝⦄ appendCertificate p c
    ⦃post⟨fun _ s => ⌜Delivering p c s⌝, fun _ s => ⌜Sound p [] s⌝⟩⦄ := by
  mvcgen [appendCertificate]
  rename_i s hi _
  exact hi.imp_right fun hd => ⟨hd.1.frame rfl rfl rfl, hd.2⟩

theorem delivering_newParents (c : Certificate PublicKey Digest Signature)
    (parents : List Digest) (round : ℕ) :
    ⦃fun s => ⌜Delivering p c s⌝⦄ send (.newParents parents round)
    ⦃post⟨fun _ s => ⌜Delivering p c s⌝, fun _ s => ⌜Sound p [] s⌝⟩⦄ := by
  mvcgen [send]
  rename_i s hi _
  rcases hi with ⟨c', hc', hgood⟩ | ⟨hd, hparents⟩
  · exact Or.inl ⟨c', List.mem_append_left _ hc', hgood⟩
  · exact Or.inr ⟨hd.send (by simp) trivial, hparents.mono (List.subset_append_left _ _)⟩

theorem delivering_send (c : Certificate PublicKey Digest Signature) :
    ⦃fun s => ⌜Delivering p c s⌝⦄ send (.newCertificate c)
    ⦃post⟨fun _ s => ⌜Sound p [] s⌝, fun _ s => ⌜Sound p [] s⌝⟩⦄ := by
  mvcgen [send]
  rename_i s hi _
  rcases hi with ⟨c', hc', hgood⟩ | ⟨hd, hparents⟩
  · exact Or.inl ⟨c', List.mem_append_left _ hc', hgood⟩
  · exact Or.inr (hd.deliver hparents)

/-- Broadcasting a certificate that is not good breaks the promise. -/
theorem sound_broadcast (c : Certificate PublicKey Digest Signature) :
    ⦃fun s => ⌜Sound p [] s ∧ (Identified c.header ∨ Broken s)⌝⦄ send (.broadcastCertificate c)
    ⦃post⟨fun _ s => ⌜Sound p [] s ∧ (Good c ∧ Identified c.header ∨ Broken s)⌝,
      fun _ s => ⌜Sound p [] s⌝⟩⦄ := by
  mvcgen [send]
  rename_i s hi _
  refine ⟨Sound.send (o := .broadcastCertificate c) hi.1 (by simp) trivial, ?_⟩
  by_cases hgood : Good c
  · refine hi.2.imp (fun hid => ⟨hgood, hid⟩) fun hbroken => ?_
    obtain ⟨c', hc', hgood'⟩ := hbroken
    exact ⟨c', List.mem_append_left _ hc', hgood'⟩
  · exact Or.inr ⟨c, List.mem_append_right _ (List.mem_singleton.mpr rfl), hgood⟩

variable [Ed25519 PublicKey Digest Signature]

theorem keepsDelivery_createVote (h : Header PublicKey Digest Signature) :
    KeepsDelivery p (createVote p h) := by
  have hsend : ∀ v : Vote PublicKey Digest Signature, KeepsDelivery p (send (.createdVote v)) :=
    fun _ => keepsDelivery_send p (by simp) trivial
  unfold KeepsDelivery at hsend ⊢
  mvcgen [createVote, hsend]
  rename_i s hi _ _
  exact hi.next (List.Subset.refl _) fun hd => hd.frame rfl rfl rfl

omit [Ed25519 PublicKey Digest Signature] in
/-- Once a certificate that is not good is assembled there is nothing more to keep. -/
theorem broken_processCertificateWith
    {f : Header PublicKey Digest Signature → M PublicKey Digest Signature Unit}
    (hout : ∀ o h, KeepsOutput o (f h)) (c : Certificate PublicKey Digest Signature) :
    ⦃fun s => ⌜Broken s⌝⦄ processCertificateWith p f c
    ⦃post⟨fun _ s => ⌜Sound p [] s⌝, fun _ s => ⌜Sound p [] s⌝⟩⦄ := by
  rintro s ⟨c', hc', hgood'⟩
  have key := keepsOutput_processCertificateWith p (.broadcastCertificate c') (hout _) c
  exact triple_mono key (fun _ hs => hs) (fun _ hs => Or.inl ⟨c', hs, hgood'⟩) s hc'

section Certificates

variable (hsep : ∀ (h : Header PublicKey Digest Signature)
  (c : Certificate PublicKey Digest Signature), h.digest ≠ c.digest)

include hsep

omit [Ed25519 PublicKey Digest Signature] in
theorem deliverCertificate_delivery (hgood : Good c) (hid : Identified c.header) :
    ⦃fun s => ⌜Sound p [] s⌝⦄ deliverCertificate p c
    ⦃post⟨fun b s => ⌜Sound p [] s ∧ (b = true → Broken s ∨ ParentsSent p c s.outputs)⌝,
      fun _ s => ⌜Sound p [] s⌝⟩⦄ := by
  have hsend : KeepsDelivery p (send (.syncCertificate c)) :=
    keepsDelivery_send p (by simp) ⟨hgood, hid⟩
  unfold KeepsDelivery at hsend
  mvcgen [deliverCertificate, hsend]
  · rename_i s hi hall
    exact ⟨hi, hi.imp_right fun hd => parentsSent_of_stored p hsep hd hgood hall⟩
  · simp_all

section Nested

variable {f : Header PublicKey Digest Signature → M PublicKey Digest Signature Unit}
  (hf : ∀ h, Identified h → KeepsDelivery p (f h))

include hf

omit [Ed25519 PublicKey Digest Signature] in
theorem keepsDelivery_processCertificateWith (hgood : Good c) (hid : Identified c.header) :
    KeepsDelivery p (processCertificateWith p f c) := by
  have hheader := hf c.header hid
  have hdeliver := deliverCertificate_delivery p hsep hgood hid
  have hwrite := delivering_write p c
  have happend := delivering_append p c
  have hparents := delivering_newParents p c
  have hsend := delivering_send p c
  unfold KeepsDelivery at hheader ⊢
  mvcgen [processCertificateWith, hheader, hdeliver, hwrite, happend, hparents, hsend]
  · rename_i hi
    exact hi.1
  · rename_i hb s hi
    exact ⟨hi.1, hi.2 (by simpa using hb)⟩
  · rename_i hi
    exact hi.1
  · rename_i hb s hi
    exact ⟨hi.1, hi.2 (by simpa using hb)⟩

omit [Ed25519 PublicKey Digest Signature] in
theorem keepsDelivery_processVoteWith (hout : ∀ o h, KeepsOutput o (f h))
    (v : Vote PublicKey Digest Signature) : KeepsDelivery p (processVoteWith p f v) := by
  have happend := appendVote_delivery p v
  have hsend := fun c : Certificate PublicKey Digest Signature => sound_broadcast p c
  have hcert : ∀ c : Certificate PublicKey Digest Signature,
      ⦃fun s => ⌜Sound p [] s ∧ (Good c ∧ Identified c.header ∨ Broken s)⌝⦄
      processCertificateWith p f c
      ⦃post⟨fun _ s => ⌜Sound p [] s⌝, fun _ s => ⌜Sound p [] s⌝⟩⦄ := by
    rintro c s ⟨hi, ⟨hgood, hid⟩ | hbroken⟩
    · exact keepsDelivery_processCertificateWith p hsep hf hgood hid s hi
    · exact broken_processCertificateWith p hout c s hbroken
  unfold KeepsDelivery
  mvcgen [processVoteWith, expect, happend, hsend, hcert]
  · rename_i hi
    exact ⟨hi.1, hi.2 _ rfl⟩
  · exact id
  · rename_i hi
    exact hi.1

end Nested

/-- `process_header` keeps the invariant. -/
theorem keepsDelivery_processHeader (n : ℕ) (hid : Identified h) :
    KeepsDelivery p (processHeader p n h) := by
  induction n generalizing h with
  | zero =>
      unfold KeepsDelivery
      mvcgen [processHeader]
  | succ n ih =>
      have hmark := keepsDelivery_markProcessing p h
      have hparents := keepsDelivery_getParents p hid
      have hpayload := keepsDelivery_missingPayload p hid
      have hwrite : ⦃fun s => ⌜Sound p [] s ∧ h.round ≠ 0⌝⦄ writeStore (.digest h.id) (.header h)
          ⦃post⟨fun _ s => ⌜Sound p [] s⌝, fun _ s => ⌜Sound p [] s⌝⟩⦄ :=
        triple_of_imp fun hround => keepsDelivery_writeHeader p (hid.resolve_right hround)
      have hcreate := keepsDelivery_createVote p h
      have hvote : ∀ v, KeepsDelivery p (processVoteWith p (processHeader p n) v) :=
        keepsDelivery_processVoteWith p hsep (fun _ => ih) fun o => keepsOutput_processHeader p o n
      have hsend : ∀ v : Vote PublicKey Digest Signature, KeepsDelivery p (send (.sendVote v)) :=
        fun _ => keepsDelivery_send p (by simp) trivial
      unfold KeepsDelivery at hmark hparents hpayload hcreate hvote hsend ⊢
      mvcgen [processHeader, orReturn, expect, hmark, hparents, hpayload, hwrite, hcreate, hvote,
        hsend]
      · exact ⟨‹_›, round_ne_zero_of_checkParents ‹_› ‹_›⟩
      · exact id
      · exact ⟨‹_›, round_ne_zero_of_checkParents ‹_› ‹_›⟩
      · exact id

theorem keepsDelivery_processCertificate (hgood : Good c) (hid : Identified c.header) :
    KeepsDelivery p (processCertificate p c) :=
  keepsDelivery_processCertificateWith p hsep
    (fun _ => keepsDelivery_processHeader p hsep recursionDepth) hgood hid

theorem keepsDelivery_processVote (v : Vote PublicKey Digest Signature) :
    KeepsDelivery p (processVote p v) :=
  keepsDelivery_processVoteWith p hsep (fun _ => keepsDelivery_processHeader p hsep recursionDepth)
    (fun o => keepsOutput_processHeader p o recursionDepth) v

theorem keepsDelivery_processOwnHeader (hid : h.digest = h.id) :
    KeepsDelivery p (processOwnHeader p h) := by
  have hsend : KeepsDelivery p (send (.broadcastHeader h)) :=
    keepsDelivery_send p (by simp) trivial
  have hheader := keepsDelivery_processHeader p hsep recursionDepth (Or.inl hid)
  unfold KeepsDelivery at hsend hheader ⊢
  mvcgen [processOwnHeader, hsend, hheader]
  rename_i s hi _
  exact hi.next (List.Subset.refl _) fun hd => { hd with current := Or.inl hid }

end Certificates

/-! ## Events and runs -/

/-- What is promised of an event: the proposer makes headers with their digest as id, and
    what is certified lists digests of certificates. -/
def Certified (p : Params PublicKey) : Event PublicKey Digest Signature → Prop
  | .ownHeader h => h.digest = h.id
  | .primaryCertificate c => c.verify p.committee = .ok () →
      (Certificate.genesis p.committee).any (·.same c) = false → Good c
  | _ => True

/-- What passes for a genesis certificate lists digests of certificates too. -/
def GenesisGood (p : Params PublicKey) (s : State PublicKey Digest Signature) :
    Event PublicKey Digest Signature → Prop
  | .primaryCertificate c => s.gcRound ≤ c.round →
      (Certificate.genesis p.committee).any (·.same c) = true → Good c
  | _ => True

theorem identified_of_verify {c : Certificate PublicKey Digest Signature}
    (hv : c.verify p.committee = .ok ()) : Identified c.header := by
  cases hgen : (Certificate.genesis p.committee).any (·.same c) with
  | true => exact Or.inr (Certificate.round_of_same_genesis hgen)
  | false => exact Or.inl (Header.verify_eq_ok.mp ((Certificate.verify_eq_ok hgen).mp hv).1).1

theorem sanitizeHeader_delivery (h : Header PublicKey Digest Signature) :
    ⦃fun s => ⌜Sound p [] s⌝⦄ sanitizeHeader p h
    ⦃post⟨fun _ s => ⌜Sound p [] s ∧ h.verify p.committee = .ok ()⌝,
      fun _ s => ⌜Sound p [] s⌝⟩⦄ := by
  mvcgen [sanitizeHeader, orReturn]

theorem keepsDelivery_sanitizeVote (v : Vote PublicKey Digest Signature) :
    KeepsDelivery p (sanitizeVote p v) := by
  unfold KeepsDelivery
  mvcgen [sanitizeVote, orReturn]

omit [Ed25519 PublicKey Digest Signature] in
/-- What `PayloadReceiver` stores is not under a digest. -/
theorem keepsDelivery_writePayload (d : Digest) (worker : ℕ) (counts : OrdMap ℕ ℕ) :
    KeepsDelivery p (writeStore (.payload d worker)
      (.accountCounts counts) : M PublicKey Digest Signature Unit) := by
  unfold KeepsDelivery
  mvcgen [writeStore]
  rename_i s hi _
  exact hi.next (List.Subset.refl _) fun hd => hd.writePayload d worker _

theorem sanitizeCertificate_delivery (c : Certificate PublicKey Digest Signature) (g : ℕ) :
    ⦃fun s => ⌜Sound p [] s ∧ s.gcRound = g⌝⦄ sanitizeCertificate p c
    ⦃post⟨fun _ s => ⌜Sound p [] s ∧ (g ≤ c.round ∧ c.verify p.committee = .ok ())⌝,
      fun _ s => ⌜Sound p [] s⌝⟩⦄ := by
  mvcgen [sanitizeCertificate, orReturn]
  · rename_i s hi _ hround _ hverify
    refine ⟨hi.1, ?_, hverify⟩
    rw [← hi.2]
    exact of_decide_eq_true (ensure_eq_ok.mp hround)
  · rename_i hi _ _ _ _
    exact hi.1
  · rename_i hi _ _
    exact hi.1

section Events

variable (hsep : ∀ (h : Header PublicKey Digest Signature)
  (c : Certificate PublicKey Digest Signature), h.digest ≠ c.digest)

include hsep

/-- Every branch of `select!` keeps the invariant. -/
theorem sound_handle (hi : Sound p [] s) {e : Event PublicKey Digest Signature}
    (hok : Certified p e) (hgenesis : GenesisGood p s e)
    (hh : ∀ h, e = .loopbackHeader h → Identified h)
    (hc : ∀ c, e = .loopbackCertificate c → Good c ∧ Identified c.header) :
    Sound p [] ((handle p e).run.run s).2 := by
  have hheader : ∀ h, Identified h → KeepsDelivery p (processHeader p recursionDepth h) :=
    fun _ => keepsDelivery_processHeader p hsep recursionDepth
  cases e with
  | primaryHeader h =>
      have hsanitize := sanitizeHeader_delivery p h
      have hheader : ⦃fun s => ⌜Sound p [] s ∧ h.verify p.committee = .ok ()⌝⦄
          processHeader p recursionDepth h
          ⦃post⟨fun _ s => ⌜Sound p [] s⌝, fun _ s => ⌜Sound p [] s⌝⟩⦄ :=
        triple_of_imp fun hv => hheader h (Or.inl (Header.verify_eq_ok.mp hv).1)
      have key : KeepsDelivery p (handle p (.primaryHeader h)) := by
        unfold KeepsDelivery
        mvcgen [handle, hsanitize, hheader]
      exact inv_of_triple key s hi
  | primaryVote v =>
      have hsanitize := keepsDelivery_sanitizeVote p v
      have hvote := keepsDelivery_processVote p hsep v
      have key : KeepsDelivery p (handle p (.primaryVote v)) := by
        unfold KeepsDelivery at hsanitize hvote ⊢
        mvcgen [handle, hsanitize, hvote]
      exact inv_of_triple key s hi
  | primaryCertificate c =>
      have hgood : s.gcRound ≤ c.round → c.verify p.committee = .ok () → Good c := by
        intro hg hv
        cases hgen : (Certificate.genesis p.committee).any (·.same c) with
        | true => exact hgenesis hg hgen
        | false => exact hok hv hgen
      have hsanitize := sanitizeCertificate_delivery p c s.gcRound
      have hcert : ⦃fun s' => ⌜Sound p [] s' ∧
            (s.gcRound ≤ c.round ∧ c.verify p.committee = .ok ())⌝⦄
          processCertificate p c
          ⦃post⟨fun _ s => ⌜Sound p [] s⌝, fun _ s => ⌜Sound p [] s⌝⟩⦄ :=
        triple_of_imp fun hv => keepsDelivery_processCertificate p hsep (hgood hv.1 hv.2)
          (identified_of_verify p hv.2)
      have key : ⦃fun s' => ⌜Sound p [] s' ∧ s'.gcRound = s.gcRound⌝⦄
          handle p (.primaryCertificate c)
          ⦃post⟨fun _ s => ⌜Sound p [] s⌝, fun _ s => ⌜Sound p [] s⌝⟩⦄ := by
        mvcgen [handle, hsanitize, hcert]
      exact inv_of_triple key s ⟨hi, rfl⟩
  | loopbackHeader h => exact inv_of_triple (hheader h (hh h rfl)) s hi
  | loopbackCertificate c =>
      obtain ⟨hgood, hid⟩ := hc c rfl
      exact inv_of_triple (keepsDelivery_processCertificate p hsep hgood hid) s hi
  | ownHeader h => exact inv_of_triple (keepsDelivery_processOwnHeader p hsep hok) s hi
  | othersBatch digest worker counts =>
      exact inv_of_triple (keepsDelivery_writePayload p digest worker counts) s hi

theorem Sound.step (hi : Sound p [] s) {e : Event PublicKey Digest Signature} {round : ℕ}
    (hen : Enabled s e round) (hok : Certified p e) (hgenesis : GenesisGood p s e) :
    Sound p [] (step p s e round) := by
  have hkeep : Sound p [] ((handle p e).run.run s).2 := by
    rcases hi with ⟨c, hc, hgood⟩ | hd
    · exact Or.inl ⟨c, inv_of_triple (keepsOutput_handle p _ e) s hc, hgood⟩
    · refine sound_handle p hsep (Or.inr hd) hok hgenesis ?_ ?_
      · rintro h rfl
        rcases hen.2.2 with ⟨missing, hm⟩ | ⟨missing, hm⟩
        · exact hd.waitable _ hm
        · exact hd.waitable _ hm
      · rintro c rfl
        exact hd.waitable _ hen.2.2
  refine step_of_handle p hkeep (fun s' hs' => ?_) (fun s' hs' => ?_) (fun s' hs' => hs')
  · exact hs'.next (List.Subset.refl _) fun hd => hd.frame rfl rfl rfl
  · exact hs'.next (by simp) fun hd => hd.frame (by simp) (by simp) (by simp)

/-- The invariant holds in every run whose events keep to `Certified` and `GenesisGood`. -/
theorem sound_of_run {events : List (Event PublicKey Digest Signature)}
    (hrun : Run p (GenesisGood p) events s) (hok : ∀ e ∈ events, Certified p e) :
    Sound p [] s := by
  induction hrun with
  | initial =>
      refine Or.inr ⟨?_, ?_, Or.inr rfl, ?_⟩
      · simp [State.initial]
      · simp [State.initial]
      · intro pre c post he
        simp [State.initial] at he
  | step run e round enabled cond ih =>
      have hi := ih fun e' he' => hok e' (List.mem_append_left _ he')
      exact hi.step p hsep enabled (hok e (by simp)) cond

end Events

/-- Causal delivery: when a certificate is sent to consensus its parents, other than
    genesis certificates, have been sent before, provided that the certificates that pass
    for genesis certificates list digests of certificates like the others. -/
theorem causal_of_genesisGood (p : Params PublicKey)
    (hsep : ∀ (h : Header PublicKey Digest Signature) (c : Certificate PublicKey Digest Signature),
      h.digest ≠ c.digest)
    (events : List (Event PublicKey Digest Signature)) (s : State PublicKey Digest Signature)
    (hrun : Run p (GenesisGood p) events s) (hcertified : ∀ e ∈ events, Certified p e)
    (hassembled : ∀ c, .broadcastCertificate c ∈ s.outputs → Good c) : Causal p s.outputs := by
  rcases sound_of_run p hsep hrun hcertified with ⟨c, hc, hgood⟩ | hd
  · exact absurd (hassembled c hc) hgood
  · exact hd.causal

/-! ## A certificate that passes for a genesis certificate

Primary 0 has a quorum of the stake, so that it certifies its own headers. -/

section Sample

open Toy

namespace DeliverySample

def committee : Committee ℕ :=
  ⟨⟨[(0, ⟨5, []⟩), (1, ⟨1, []⟩), (2, ⟨1, []⟩)], Committee.sorted_three⟩⟩

def params : Params ℕ := ⟨0, committee, 50, false⟩

/-- A header of primary 0, with its id. -/
def header (round : ℕ) (parents : List ℕ) : Header ℕ ℕ Unit :=
  let h : Header ℕ ℕ Unit :=
    { author := 0, round := round, payload := ∅, accountCounts := ∅, avgQueueDelayMs := 0
      createdAt := 0, id := 0, signature := (), parents := OrdSet.ofList parents }
  { h with id := h.digest }

theorem identified_header (round : ℕ) (parents : List ℕ) :
    (header round parents).digest = (header round parents).id := rfl

def genesis : List ℕ :=
  (Certificate.genesis committee : List (Certificate ℕ ℕ Unit)).map (·.digest)

def header1 : Header ℕ ℕ Unit := header 1 genesis

/-- The certificate that primary 0 assembles for its first header. -/
def certificate1 : Certificate ℕ ℕ Unit := ⟨header1, [(0, ())]⟩

def header2 : Header ℕ ℕ Unit := header 2 [certificate1.digest]

/-- Equal to the genesis certificate of authority 0, as `PartialEq` has it, with the id of
    a header as parent. -/
def forged : Certificate ℕ ℕ Unit :=
  ⟨{ (default : Header ℕ ℕ Unit) with author := 0, parents := OrdSet.ofList [header1.id] }, []⟩

/-- Two headers are proposed, one on the other. -/
def proposals : List (Event ℕ ℕ Unit × ℕ) := [(.ownHeader header1, 0), (.ownHeader header2, 0)]

/-- The forged certificate is received twice. The first time the bytes of the header are
    not those of a certificate; the second time nobody looks at them. -/
def forgery : List (Event ℕ ℕ Unit × ℕ) :=
  [(.ownHeader header1, 0), (.primaryCertificate forged, 0), (.primaryCertificate forged, 0)]

/-- The preimage of a header is longer than that of a certificate. -/
theorem digest_ne (h : Header ℕ ℕ Unit) (c : Certificate ℕ ℕ Unit) : h.digest ≠ c.digest := by
  refine (sha512_ne_of_length_lt ?_).symm
  simp [voteBytes, Header.preimage, AsBytes.asRef, length_leBytes]
  omega

/-- Parents that are genesis certificates, or the first certificate. -/
theorem good_of_all {c : Certificate ℕ ℕ Unit}
    (h : (c.header.parents.toList.all fun d => d ∈ genesis ∨ d = certificate1.digest) = true) :
    Good c := by
  intro d hd
  rcases of_decide_eq_true (List.all_eq_true.mp h d hd) with hgen | rfl
  · obtain ⟨g, -, hg⟩ := List.mem_map.mp hgen
    exact ⟨g, hg⟩
  · exact ⟨certificate1, rfl⟩

/-- The certificates that are broadcast. -/
def assembled (outputs : List (Output ℕ ℕ Unit)) : List (Certificate ℕ ℕ Unit) :=
  outputs.filterMap fun o => match o with
    | .broadcastCertificate c => some c
    | _ => none

theorem good_of_assembled {outputs : List (Output ℕ ℕ Unit)}
    (h : ((assembled outputs).all fun c =>
      c.header.parents.toList.all fun d => d ∈ genesis ∨ d = certificate1.digest) = true)
    (c : Certificate ℕ ℕ Unit) (hc : .broadcastCertificate c ∈ outputs) : Good c := by
  refine good_of_all (List.all_eq_true.mp h c ?_)
  exact List.mem_filterMap.mpr ⟨_, hc, rfl⟩

theorem run_proposals : Run params (GenesisGood params) (proposals.map Prod.fst)
    (replay params proposals) := by
  refine run_replay params proposals (by decide +kernel) ?_
  intro i _ x hx
  have hmem : x ∈ proposals := List.mem_of_getElem? hx
  simp only [proposals, List.mem_cons, List.not_mem_nil, or_false] at hmem
  rcases hmem with rfl | rfl
  · trivial
  · trivial

theorem certified_proposals : ∀ e ∈ proposals.map Prod.fst, Certified params e := by
  simp only [proposals, List.map_cons, List.map_nil, List.forall_mem_cons]
  exact ⟨identified_header _ _, identified_header _ _, by simp⟩

theorem run_forgery : Run params (fun _ _ => True) (forgery.map Prod.fst)
    (replay params forgery) :=
  run_replay params forgery (by decide +kernel) (fun _ _ _ _ => trivial)

/-- The forged certificate is taken for a genesis certificate. -/
theorem certified_forgery : ∀ e ∈ forgery.map Prod.fst, Certified params e := by
  have hforged : Certified params (.primaryCertificate forged) :=
    fun _ hgen => absurd hgen (by decide +kernel)
  simp only [forgery, List.map_cons, List.map_nil, List.forall_mem_cons]
  exact ⟨identified_header _ _, hforged, hforged, by simp⟩

end DeliverySample

open DeliverySample

theorem causal_of_genesisGood_sample : Causal params (replay params proposals).outputs :=
  causal_of_genesisGood params digest_ne (proposals.map Prod.fst) (replay params proposals)
    run_proposals certified_proposals (good_of_assembled (by decide +kernel))

/-- Without the condition a certificate may be sent to consensus before its parents. -/
theorem delivery_fails :
    ¬ ∀ (p : Params ℕ) (events : List (Event ℕ ℕ Unit)) (s : State ℕ ℕ Unit),
        Run p (fun _ _ => True) events s → (∀ e ∈ events, Certified p e) →
        (∀ c, .broadcastCertificate c ∈ s.outputs → Good c) → Causal p s.outputs := by
  intro h
  have hcausal := h params _ _ run_forgery certified_forgery (good_of_assembled (by decide +kernel))
  have hmem : .newCertificate forged ∈ (replay params forgery).outputs := by decide +kernel
  obtain ⟨pre, post, hout⟩ := List.append_of_mem hmem
  rcases hcausal pre forged post hout header1.id (by decide +kernel) with
    ⟨g, -, hdigest⟩ | ⟨c, hdigest, -⟩
  · exact digest_ne header1 g hdigest.symm
  · exact digest_ne header1 c hdigest.symm

end Sample

end DagBft.Core
