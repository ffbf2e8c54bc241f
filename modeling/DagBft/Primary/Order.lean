/-
  The order in which `Core` sends certificates to consensus, whatever it is given.

  `deliver_certificate` looks the parents of a certificate up in the store, where it finds
  genesis certificates, certificates that have been sent to consensus, or headers, since
  headers are stored under their ids. `OrderInv` says so of every certificate that is sent;
  the headers are those in play (`known`). Who knows that a parent is no header, as with
  parents that are certified, knows that it was sent before (`Primary/Delivery` assumes it of
  every event instead).
-/
import DagBft.Primary.Evidence

namespace DagBft.Core

open Std.Do

set_option mvcgen.warning false

variable {PublicKey Digest Signature : Type} [LinearOrder PublicKey] [LinearOrder Digest]
  [AsBytes PublicKey] [AsBytes Digest] [Sha512 Digest]
  [Inhabited PublicKey] [Inhabited Digest] [Inhabited Signature]

variable (p : Params PublicKey) (known : Header PublicKey Digest Signature → Prop)

/-- What is stored under a digest: a header with this id, or a certificate that was sent. -/
def Filed (outputs : List (Output PublicKey Digest Signature)) (d : Digest) :
    StoreValue PublicKey Digest Signature → Prop
  | .header h => known h ∧ h.id = d
  | .certificate c => c.digest = d ∧ .newCertificate c ∈ outputs
  | .accountCounts _ => False

/-- Every parent of the certificate is the id of a header, genesis, or among the outputs. -/
def ParentsFiled (c : Certificate PublicKey Digest Signature)
    (outputs : List (Output PublicKey Digest Signature)) : Prop :=
  ∀ d ∈ c.header.parents.toList, (∃ h, known h ∧ h.id = d) ∨
    d ∈ genesisDigests p.committee Signature ∨
    ∃ c' : Certificate PublicKey Digest Signature, c'.digest = d ∧ .newCertificate c' ∈ outputs

/-- The waiters are given headers that are in play. -/
def InPlay : Output PublicKey Digest Signature → Prop
  | .syncBatches _ h | .syncParents _ h => known h
  | .syncCertificate c => known c.header
  | _ => True

/-- The invariant. The certificates in `unsent` are stored already. -/
structure OrderInv (unsent : List (Output PublicKey Digest Signature))
    (s : State PublicKey Digest Signature) : Prop where
  stored : ∀ d v, s.store (.digest d) = some v → Filed known (s.outputs ++ unsent) d v
  waiting : ∀ o ∈ s.outputs, InPlay known o
  current : known s.currentHeader
  order : ∀ pre c post, s.outputs = pre ++ .newCertificate c :: post → ParentsFiled p known c pre

variable {p known} {s s' : State PublicKey Digest Signature}
  {unsent : List (Output PublicKey Digest Signature)} {h : Header PublicKey Digest Signature}
  {c : Certificate PublicKey Digest Signature}

omit [LinearOrder PublicKey] [Inhabited PublicKey] [Inhabited Digest] [Inhabited Signature] in
theorem Filed.mono {outputs outputs' : List (Output PublicKey Digest Signature)} {d : Digest}
    {v : StoreValue PublicKey Digest Signature} (hv : Filed known outputs d v)
    (hsub : outputs ⊆ outputs') : Filed known outputs' d v := by
  cases v with
  | header h => exact hv
  | certificate c => exact ⟨hv.1, hsub hv.2⟩
  | accountCounts counts => exact hv

theorem ParentsFiled.mono {outputs outputs' : List (Output PublicKey Digest Signature)}
    (hc : ParentsFiled p known c outputs) (hsub : outputs ⊆ outputs') :
    ParentsFiled p known c outputs' := by
  intro d hd
  refine (hc d hd).imp_right (Or.imp_right ?_)
  rintro ⟨c', hdigest, hmem⟩
  exact ⟨c', hdigest, hsub hmem⟩

theorem OrderInv.frame (hi : OrderInv p known unsent s) (hs : s'.store = s.store)
    (hc : s'.currentHeader = s.currentHeader) (ho : s'.outputs = s.outputs) :
    OrderInv p known unsent s' := by
  refine ⟨?_, ?_, hc ▸ hi.current, ?_⟩
  · rw [hs, ho]
    exact hi.stored
  · rw [ho]
    exact hi.waiting
  · rw [ho]
    exact hi.order

/-- Sending something: if it is a certificate, then it was to be sent and its parents are
    filed. -/
theorem OrderInv.send (hi : OrderInv p known unsent s) {o : Output PublicKey Digest Signature}
    {unsent' : List (Output PublicKey Digest Signature)} (hsub : unsent ⊆ o :: unsent')
    (ho : InPlay known o) (hc : ∀ c, o = .newCertificate c → ParentsFiled p known c s.outputs) :
    OrderInv p known unsent' { s with outputs := s.outputs ++ [o] } := by
  refine ⟨fun d v hv => (hi.stored d v hv).mono ?_, fun o' ho' => ?_, hi.current,
    fun pre c post he => ?_⟩
  · rw [List.append_assoc]
    exact List.append_subset.mpr ⟨List.subset_append_left _ _,
      fun x hx => List.mem_append_right _ (hsub hx)⟩
  · rcases List.mem_append.mp ho' with ho' | ho'
    · exact hi.waiting o' ho'
    · rwa [List.mem_singleton.mp ho']
  · rcases List.append_eq_append_iff.mp he with ⟨l, hpre, hl⟩ | ⟨l, hout, hl⟩
    · cases l with
      | nil =>
          simp only [List.nil_append, List.cons.injEq] at hl
          rw [hpre, List.append_nil]
          exact hc c hl.1
      | cons x l => simp at hl
    · cases l with
      | nil =>
          simp only [List.nil_append, List.cons.injEq] at hl
          rw [List.append_nil] at hout
          rw [← hout]
          exact hc c hl.1.symm
      | cons x l =>
          simp only [List.cons_append, List.cons.injEq] at hl
          rw [← hl.1] at hout
          exact hi.order pre c l hout

/-- Storing a value under a digest. -/
theorem OrderInv.write (hi : OrderInv p known [] s) {d : Digest}
    {v : StoreValue PublicKey Digest Signature} (hv : Filed known (s.outputs ++ unsent) d v) :
    OrderInv p known unsent (s.write (.digest d) v) := by
  refine ⟨fun d' v' hv' => ?_, hi.waiting, hi.current, hi.order⟩
  by_cases hd : d' = d
  · subst hd
    simp only [State.write, Function.update_self, Option.some.injEq] at hv'
    exact hv' ▸ hv
  · have hne : StoreKey.digest d' ≠ StoreKey.digest d := fun he => hd (StoreKey.digest.inj he)
    simp only [State.write, Function.update_of_ne hne] at hv'
    exact (hi.stored d' v' hv').mono (by simp [State.write])

/-- What is stored under a payload key does not matter. -/
theorem OrderInv.writePayload (hi : OrderInv p known unsent s) (d : Digest) (worker : ℕ)
    (v : StoreValue PublicKey Digest Signature) :
    OrderInv p known unsent (s.write (.payload d worker) v) := by
  refine ⟨fun d' v' hv' => ?_, hi.waiting, hi.current, hi.order⟩
  have hne : StoreKey.digest d' ≠ StoreKey.payload d worker := by simp
  simp only [State.write, Function.update_of_ne hne] at hv'
  exact hi.stored d' v' hv'

/-- What `deliver_certificate` finds. -/
theorem OrderInv.parentsFiled (hi : OrderInv p known [] s)
    (hall : (c.header.parents.toList.all fun d =>
      (findGenesis p d : Option (Certificate PublicKey Digest Signature)).isSome ||
        (s.store (.digest d)).isSome) = true) : ParentsFiled p known c s.outputs := by
  intro d hd
  rcases Bool.or_eq_true_iff.mp (List.all_eq_true.mp hall d hd) with hgen | hsto
  · obtain ⟨g, hg⟩ := Option.isSome_iff_exists.mp hgen
    exact Or.inr (Or.inl (List.mem_map.mpr
      ⟨g, List.mem_of_find?_eq_some hg, by simpa using List.find?_some hg⟩))
  · obtain ⟨v, hv⟩ := Option.isSome_iff_exists.mp hsto
    have hfiled := hi.stored d v hv
    rw [List.append_nil] at hfiled
    cases v with
    | header h => exact Or.inl ⟨h, hfiled⟩
    | certificate c' => exact Or.inr (Or.inr ⟨c', hfiled⟩)
    | accountCounts counts => exact hfiled.elim

/-! ## What each function keeps -/

variable (p known)

/-- `m` keeps the invariant, whether or not it returns an error. -/
def KeepsOrder {α : Type} (m : M PublicKey Digest Signature α) : Prop :=
  ⦃fun s => ⌜OrderInv p known [] s⌝⦄ m
  ⦃post⟨fun _ s => ⌜OrderInv p known [] s⌝, fun _ s => ⌜OrderInv p known [] s⌝⟩⦄

theorem keepsOrder_send {o : Output PublicKey Digest Signature}
    (hne : ∀ c, o ≠ .newCertificate c) (ho : InPlay known o) :
    KeepsOrder p known (send o) := by
  unfold KeepsOrder
  mvcgen [send]
  rename_i s hi _
  exact hi.send (by simp) ho fun c hc => absurd hc (hne c)

theorem keepsOrder_getParents (hk : known h) : KeepsOrder p known (getParents p h) := by
  have hsend : ∀ missing, KeepsOrder p known (send (.syncParents missing h)) :=
    fun _ => keepsOrder_send p known (by simp) hk
  unfold KeepsOrder at hsend ⊢
  mvcgen [getParents, orReturn, hsend]

theorem keepsOrder_missingPayload (hk : known h) : KeepsOrder p known (missingPayload p h) := by
  have hsend : ∀ missing, KeepsOrder p known (send (.syncBatches missing h)) :=
    fun _ => keepsOrder_send p known (by simp) hk
  unfold KeepsOrder at hsend ⊢
  mvcgen [missingPayload, hsend]

/-- A vote makes a certificate for the current header. -/
theorem appendVote_order (v : Vote PublicKey Digest Signature) :
    ⦃fun s => ⌜OrderInv p known [] s⌝⦄ appendVote p v
    ⦃post⟨fun o s => ⌜OrderInv p known [] s ∧ ∀ c, o = some c → known c.header⌝,
      fun _ s => ⌜OrderInv p known [] s⌝⟩⦄ := by
  mvcgen [appendVote, orReturn]
  rename_i s hi agg hok
  refine ⟨hi.frame rfl rfl rfl, ?_⟩
  rintro c hc
  obtain ⟨agg', o⟩ := agg
  obtain rfl : o = some c := hc
  rw [VotesAggregator.header_of_append hok]
  exact hi.current

section Nested

variable {f : Header PublicKey Digest Signature → M PublicKey Digest Signature Unit}
  (hf : ∀ h, known h → KeepsOrder p known (f h))

include hf

theorem keepsOrder_processCertificateWith (hk : known c.header) :
    KeepsOrder p known (processCertificateWith p f c) := by
  have hheader := hf c.header hk
  have hsync : KeepsOrder p known (send (.syncCertificate c)) :=
    keepsOrder_send p known (by simp) hk
  have hdeliver : ⦃fun s => ⌜OrderInv p known [] s⌝⦄ deliverCertificate p c
      ⦃post⟨fun b s => ⌜OrderInv p known [] s ∧ (b = true → ParentsFiled p known c s.outputs)⌝,
        fun _ s => ⌜OrderInv p known [] s⌝⟩⦄ := by
    unfold KeepsOrder at hsync
    mvcgen [deliverCertificate, hsync]
    · rename_i s hi hall
      exact ⟨hi, hi.parentsFiled hall⟩
    · simp_all
  -- from the store to consensus
  have hwrite : ⦃fun s => ⌜OrderInv p known [] s ∧ ParentsFiled p known c s.outputs⌝⦄
      writeStore (.digest c.digest) (.certificate c)
      ⦃post⟨fun _ s => ⌜OrderInv p known [.newCertificate c] s ∧
          ParentsFiled p known c s.outputs⌝,
        fun _ s => ⌜OrderInv p known [] s⌝⟩⦄ := by
    mvcgen [writeStore]
    rename_i s hi _
    exact ⟨hi.1.write (v := .certificate c) ⟨rfl, by simp⟩, hi.2⟩
  have happend : ⦃fun s => ⌜OrderInv p known [.newCertificate c] s ∧
        ParentsFiled p known c s.outputs⌝⦄ appendCertificate p c
      ⦃post⟨fun _ s => ⌜OrderInv p known [.newCertificate c] s ∧
          ParentsFiled p known c s.outputs⌝,
        fun _ s => ⌜OrderInv p known [] s⌝⟩⦄ := by
    mvcgen [appendCertificate]
    rename_i s hi _
    exact ⟨hi.1.frame rfl rfl rfl, hi.2⟩
  have hparents : ∀ parents round, ⦃fun s => ⌜OrderInv p known [.newCertificate c] s ∧
        ParentsFiled p known c s.outputs⌝⦄ send (.newParents parents round)
      ⦃post⟨fun _ s => ⌜OrderInv p known [.newCertificate c] s ∧
          ParentsFiled p known c s.outputs⌝,
        fun _ s => ⌜OrderInv p known [] s⌝⟩⦄ := by
    intro parents round
    mvcgen [send]
    rename_i s hi _
    exact ⟨hi.1.send (o := .newParents parents round) (List.subset_cons_self _ _) trivial (by simp),
      hi.2.mono (List.subset_append_left _ _)⟩
  have hnew : ⦃fun s => ⌜OrderInv p known [.newCertificate c] s ∧
        ParentsFiled p known c s.outputs⌝⦄ send (.newCertificate c)
      ⦃post⟨fun _ s => ⌜OrderInv p known [] s⌝, fun _ s => ⌜OrderInv p known [] s⌝⟩⦄ := by
    mvcgen [send]
    rename_i s hi _
    refine hi.1.send (List.Subset.refl _) trivial fun c' hc' => ?_
    rw [← Output.newCertificate.inj hc']
    exact hi.2
  unfold KeepsOrder at hheader ⊢
  mvcgen [processCertificateWith, hheader, hdeliver, hwrite, happend, hparents, hnew]
  · rename_i hi
    exact hi.1
  · rename_i hb s hi
    exact ⟨hi.1, hi.2 (by simpa using hb)⟩
  · rename_i hi
    exact hi.1
  · rename_i hb s hi
    exact ⟨hi.1, hi.2 (by simpa using hb)⟩

theorem keepsOrder_processVoteWith (v : Vote PublicKey Digest Signature) :
    KeepsOrder p known (processVoteWith p f v) := by
  have happend := appendVote_order p known v
  have hsend : ∀ c : Certificate PublicKey Digest Signature,
      ⦃fun s => ⌜OrderInv p known [] s ∧ known c.header⌝⦄ send (.broadcastCertificate c)
      ⦃post⟨fun _ s => ⌜OrderInv p known [] s ∧ known c.header⌝,
        fun _ s => ⌜OrderInv p known [] s⌝⟩⦄ := by
    intro c
    mvcgen [send]
    rename_i s hi _
    exact ⟨hi.1.send (o := .broadcastCertificate c) (by simp) trivial (by simp), hi.2⟩
  have hcert : ∀ c : Certificate PublicKey Digest Signature,
      ⦃fun s => ⌜OrderInv p known [] s ∧ known c.header⌝⦄ processCertificateWith p f c
      ⦃post⟨fun _ s => ⌜OrderInv p known [] s⌝, fun _ s => ⌜OrderInv p known [] s⌝⟩⦄ :=
    fun c => triple_of_imp fun hk => keepsOrder_processCertificateWith p known hf hk
  unfold KeepsOrder
  mvcgen [processVoteWith, expect, happend, hsend, hcert]
  · rename_i hi
    exact ⟨hi.1, hi.2 _ rfl⟩
  · exact id
  · rename_i hi
    exact hi.1

end Nested

variable [Ed25519 PublicKey Digest Signature]

theorem keepsOrder_createVote (h : Header PublicKey Digest Signature) :
    KeepsOrder p known (createVote p h) := by
  have hsend : ∀ v : Vote PublicKey Digest Signature, KeepsOrder p known (send (.createdVote v)) :=
    fun _ => keepsOrder_send p known (by simp) trivial
  unfold KeepsOrder at hsend ⊢
  mvcgen [createVote, hsend]
  rename_i s hi _ _
  exact hi.frame rfl rfl rfl

/-- `process_header` keeps the invariant. -/
theorem keepsOrder_processHeader (n : ℕ) (hk : known h) :
    KeepsOrder p known (processHeader p n h) := by
  induction n generalizing h with
  | zero =>
      unfold KeepsOrder
      mvcgen [processHeader]
  | succ n ih =>
      have hmark : KeepsOrder p known (markProcessing h) := by
        unfold KeepsOrder
        mvcgen [markProcessing]
        rename_i s hi _
        exact hi.frame rfl rfl rfl
      have hwrite : KeepsOrder p known (writeStore (.digest h.id) (.header h)) := by
        unfold KeepsOrder
        mvcgen [writeStore]
        rename_i s hi _
        exact hi.write (v := .header h) ⟨hk, rfl⟩
      have hparents := keepsOrder_getParents p known hk
      have hpayload := keepsOrder_missingPayload p known hk
      have hcreate := keepsOrder_createVote p known h
      have hvote : ∀ v, KeepsOrder p known (processVoteWith p (processHeader p n) v) :=
        keepsOrder_processVoteWith p known fun _ => ih
      have hsend : ∀ v : Vote PublicKey Digest Signature,
          KeepsOrder p known (send (.sendVote v)) :=
        fun _ => keepsOrder_send p known (by simp) trivial
      unfold KeepsOrder at hmark hwrite hparents hpayload hcreate hvote hsend ⊢
      mvcgen [processHeader, orReturn, expect, hmark, hparents, hpayload, hwrite, hcreate, hvote,
        hsend]
      all_goals exact id

/-! ## Events and runs -/

/-- Headers that verify, and those of our proposer, are in play. -/
def EventInPlay : Event PublicKey Digest Signature → Prop
  | .ownHeader h => known h
  | .primaryHeader h => h.verify p.committee = .ok () → known h
  | .primaryCertificate c => c.verify p.committee = .ok () → known c.header
  | _ => True

/-- Every branch of `select!` keeps the invariant. -/
theorem orderInv_handle (hi : OrderInv p known [] s) {e : Event PublicKey Digest Signature}
    (hok : EventInPlay p known e) (hh : ∀ h, e = .loopbackHeader h → known h)
    (hc : ∀ c, e = .loopbackCertificate c → known c.header) :
    OrderInv p known [] ((handle p e).run.run s).2 := by
  have hheader : ∀ h, known h → KeepsOrder p known (processHeader p recursionDepth h) :=
    fun _ => keepsOrder_processHeader p known recursionDepth
  have hcert : ∀ c : Certificate PublicKey Digest Signature, known c.header →
      KeepsOrder p known (processCertificate p c) :=
    fun _ => keepsOrder_processCertificateWith p known hheader
  have key : KeepsOrder p known (handle p e) := by
    cases e with
    | primaryHeader h =>
        have hprocess : ⦃fun s => ⌜OrderInv p known [] s ∧ h.verify p.committee = .ok ()⌝⦄
            processHeader p recursionDepth h
            ⦃post⟨fun _ s => ⌜OrderInv p known [] s⌝, fun _ s => ⌜OrderInv p known [] s⌝⟩⦄ :=
          triple_of_imp fun hv => hheader h (hok hv)
        unfold KeepsOrder
        mvcgen [handle, sanitizeHeader, orReturn, hprocess]
    | primaryVote v =>
        have hvote := keepsOrder_processVoteWith p known hheader v
        unfold KeepsOrder at hvote ⊢
        mvcgen [handle, processVote, sanitizeVote, orReturn, hvote]
    | primaryCertificate c =>
        have hprocess : ⦃fun s => ⌜OrderInv p known [] s ∧ c.verify p.committee = .ok ()⌝⦄
            processCertificate p c
            ⦃post⟨fun _ s => ⌜OrderInv p known [] s⌝, fun _ s => ⌜OrderInv p known [] s⌝⟩⦄ :=
          triple_of_imp fun hv => hcert c (hok hv)
        unfold KeepsOrder
        mvcgen [handle, sanitizeCertificate, orReturn, hprocess]
    | loopbackHeader h => exact hheader h (hh h rfl)
    | loopbackCertificate c => exact hcert c (hc c rfl)
    | ownHeader h =>
        have hsend : KeepsOrder p known (send (.broadcastHeader h)) :=
          keepsOrder_send p known (by simp) trivial
        have hprocess := hheader h hok
        unfold KeepsOrder at hsend hprocess ⊢
        mvcgen [handle, processOwnHeader, hsend, hprocess]
        rename_i s hi _
        exact { hi with current := hok }
    | othersBatch digest worker counts =>
        unfold KeepsOrder
        mvcgen [handle, writeStore]
        rename_i s hi _
        exact hi.writePayload digest worker _
  exact inv_of_triple key s hi

/-- One iteration of the main loop keeps the invariant. -/
theorem OrderInv.step (hi : OrderInv p known [] s) {e : Event PublicKey Digest Signature}
    {round : ℕ} (hen : Enabled s e round) (hok : EventInPlay p known e) :
    OrderInv p known [] (step p s e round) := by
  have hkeep : OrderInv p known [] ((handle p e).run.run s).2 := by
    refine orderInv_handle p known hi hok ?_ ?_
    · rintro h rfl
      rcases hen.2.2 with ⟨missing, hm⟩ | ⟨missing, hm⟩
      · exact hi.waiting _ hm
      · exact hi.waiting _ hm
    · rintro c rfl
      exact hi.waiting _ hen.2.2
  refine step_of_handle p hkeep (fun s' hs' => ?_) (fun s' hs' => ?_) (fun s' hs' => hs')
  · exact hs'.frame rfl rfl rfl
  · exact hs'.frame (by simp) (by simp) (by simp)

/-- The invariant holds in every run. -/
theorem orderInv_of_run (hstart : known default)
    {events : List (Event PublicKey Digest Signature)}
    (hrun : Run p (fun _ e => EventInPlay p known e) events s) : OrderInv p known [] s := by
  induction hrun with
  | initial =>
      refine ⟨by simp [State.initial], by simp [State.initial], hstart, fun pre c post he => ?_⟩
      simp [State.initial] at he
  | step run e round enabled cond ih => exact ih.step p known enabled cond

end DagBft.Core
