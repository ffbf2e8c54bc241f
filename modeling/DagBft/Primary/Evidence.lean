/-
  What stands behind the votes and the certificates of `Core`.

  A vote is evidence: when `Core` creates it, it holds the header, its parents and its
  batches, and it never loses them (`Examined`). A certificate that it accepts or assembles
  is verified, and the signatures of the honest authorities on it are theirs (`Accepted`).
  `EvidenceInv` says both of the state of one primary, relative to what is known to have been
  signed; `Evident.step` is what one event does.

  As in `Primary/Delivery`, a certificate that does not verify although `Core` assembled it
  ends the argument (`Invalid`); `Primary/Assembly` says when there is none.
-/
import DagBft.Primary.Assembly
import DagBft.Primary.Delivery

namespace DagBft.Core

open Std.Do

set_option mvcgen.warning false

variable {PublicKey Digest Signature : Type} [LinearOrder PublicKey] [LinearOrder Digest]

/-! ## What a store keeps -/

/-- What was a certificate, a header or a batch in the store still is one. -/
structure Retains (store store' : Store PublicKey Digest Signature) : Prop where
  certificate : ∀ d c, store (.digest d) = some (.certificate c) →
    ∃ c', store' (.digest d) = some (.certificate c')
  header : ∀ d h, store (.digest d) = some (.header h) →
    ∃ h', store' (.digest d) = some (.header h')
  payload : ∀ d worker, (store (.payload d worker)).isSome = true →
    (store' (.payload d worker)).isSome = true

omit [LinearOrder PublicKey] in
theorem Retains.refl (store : Store PublicKey Digest Signature) : Retains store store where
  certificate _ c hc := ⟨c, hc⟩
  header _ h hh := ⟨h, hh⟩
  payload _ _ := id

omit [LinearOrder PublicKey] in
/-- Writing a certificate where there is no header. -/
theorem retains_certificate {store : Store PublicKey Digest Signature} {d : Digest}
    (c : Certificate PublicKey Digest Signature)
    (hfree : ∀ h, store (.digest d) ≠ some (.header h)) :
    Retains store (Function.update store (.digest d) (some (.certificate c))) where
  certificate d' c' hc := by
    by_cases hd : d' = d
    · exact ⟨c, by rw [hd, Function.update_self]⟩
    · exact ⟨c', by rwa [Function.update_of_ne fun he => hd (StoreKey.digest.inj he)]⟩
  header d' h hh := by
    by_cases hd : d' = d
    · exact absurd (hd ▸ hh) (hfree h)
    · exact ⟨h, by rwa [Function.update_of_ne fun he => hd (StoreKey.digest.inj he)]⟩
  payload d' worker hp := by rwa [Function.update_of_ne (by simp)]

omit [LinearOrder PublicKey] in
/-- Writing a header where there is no certificate. -/
theorem retains_header {store : Store PublicKey Digest Signature} {d : Digest}
    (h : Header PublicKey Digest Signature)
    (hfree : ∀ c, store (.digest d) ≠ some (.certificate c)) :
    Retains store (Function.update store (.digest d) (some (.header h))) where
  certificate d' c hc := by
    by_cases hd : d' = d
    · exact absurd (hd ▸ hc) (hfree c)
    · exact ⟨c, by rwa [Function.update_of_ne fun he => hd (StoreKey.digest.inj he)]⟩
  header d' h' hh := by
    by_cases hd : d' = d
    · exact ⟨h, by rw [hd, Function.update_self]⟩
    · exact ⟨h', by rwa [Function.update_of_ne fun he => hd (StoreKey.digest.inj he)]⟩
  payload d' worker hp := by rwa [Function.update_of_ne (by simp)]

omit [LinearOrder PublicKey] in
theorem retains_payload {store : Store PublicKey Digest Signature} (d : Digest) (worker : ℕ)
    (v : StoreValue PublicKey Digest Signature) :
    Retains store (Function.update store (.payload d worker) (some v)) where
  certificate d' c hc := ⟨c, by rwa [Function.update_of_ne (by simp)]⟩
  header d' h hh := ⟨h, by rwa [Function.update_of_ne (by simp)]⟩
  payload d' worker' hp := by
    by_cases hk : (StoreKey.payload d' worker' : StoreKey Digest) = .payload d worker
    · rw [hk, Function.update_self]
      rfl
    · rwa [Function.update_of_ne hk]

/-! ## Evidence -/

variable [AsBytes PublicKey] [AsBytes Digest] [Sha512 Digest]
  [Inhabited PublicKey] [Inhabited Digest] [Inhabited Signature]
  [Ed25519 PublicKey Digest Signature]

variable (p : Params PublicKey) (known : Header PublicKey Digest Signature → Prop)
  (signed : PublicKey → Digest → Prop)

/-- An authority has signed the digest: it was known to have before, or it is this primary
    and the digest is that of a vote among its outputs. -/
def Attested (outputs : List (Output PublicKey Digest Signature)) (name : PublicKey)
    (d : Digest) : Prop :=
  signed name d ∨
    name = p.name ∧ ∃ v : Vote PublicKey Digest Signature, .createdVote v ∈ outputs ∧ v.digest = d

/-- A signature that verifies is not forged. -/
def Genuine (outputs : List (Output PublicKey Digest Signature)) (signature : Signature)
    (d : Digest) (name : PublicKey) : Prop :=
  Ed25519.verify signature d name = true → Attested p signed outputs name d

/-- A certificate that passes `Certificate::verify`, with genuine votes. -/
structure Accepted (outputs : List (Output PublicKey Digest Signature))
    (c : Certificate PublicKey Digest Signature) : Prop where
  known : known c.header
  verified : c.verify p.committee = .ok ()
  genuine : ∀ x ∈ c.votes, Genuine p signed outputs x.2 c.digest x.1

/-- The parents of the header: a quorum of certificates of the round before, which are held. -/
structure Supported (outputs : List (Output PublicKey Digest Signature))
    (store : Store PublicKey Digest Signature) (h : Header PublicKey Digest Signature) :
    Prop where
  parents : ∃ parents : List (Certificate PublicKey Digest Signature),
    parents.map Certificate.digest = h.parents.toList ∧
    (∀ c ∈ parents, c ∈ Certificate.genesis p.committee ∨ Accepted p known signed outputs c) ∧
    (∀ c ∈ parents, c.round + 1 = h.round) ∧
    p.committee.quorumThreshold ≤ (parents.map fun c => p.committee.stake c.origin).sum
  held : ∀ d ∈ h.parents.toList, d ∈ genesisDigests p.committee Signature ∨
    ∃ c, store (.digest d) = some (.certificate c)

/-- The batches of the header have been stored, or are those of our own workers. -/
def PayloadHeld (store : Store PublicKey Digest Signature)
    (h : Header PublicKey Digest Signature) : Prop :=
  h.author = p.name ∨ ∀ x ∈ h.payload.entries, (store (.payload x.1 x.2)).isSome = true

/-- What `process_header` has checked of a header before it votes for it. -/
structure Examined (outputs : List (Output PublicKey Digest Signature))
    (store : Store PublicKey Digest Signature) (h : Header PublicKey Digest Signature) :
    Prop where
  identified : h.digest = h.id
  positive : h.round ≠ 0
  supported : Supported p known signed outputs store h
  payload : PayloadHeld p store h
  stored : ∃ h', store (.digest h.id) = some (.header h')
  known : known h

/-- What is stored under a digest. -/
def StoredAs (outputs : List (Output PublicKey Digest Signature)) (d : Digest) :
    StoreValue PublicKey Digest Signature → Prop
  | .header h => known h ∧ h.digest = h.id ∧ h.id = d
  | .certificate c => c.digest = d ∧ Accepted p known signed outputs c
  | .accountCounts _ => False

/-- What an output stands for. The headers `own` are those that our proposer has made. -/
def Justified (own : Header PublicKey Digest Signature → Prop)
    (outputs : List (Output PublicKey Digest Signature))
    (store : Store PublicKey Digest Signature) : Output PublicKey Digest Signature → Prop
  | .syncBatches _ h | .syncParents _ h => known h ∧ Identified h
  | .syncCertificate c | .newCertificate c => Accepted p known signed outputs c
  | .createdVote v => ∃ h, v = Vote.new h p.name ∧ Examined p known signed outputs store h
  | .broadcastHeader h => own h
  | _ => True

/-- The invariant, for the headers `own` of our proposer, of which `current` is the last. -/
structure EvidenceInv (own : Header PublicKey Digest Signature → Prop)
    (current : Header PublicKey Digest Signature) (s : State PublicKey Digest Signature) :
    Prop where
  header : s.currentHeader = current
  votes : ∀ x ∈ s.votesAggregator.votes, Genuine p signed s.outputs x.2 (voteDigest current) x.1
  outputs : ∀ o ∈ s.outputs, Justified p known signed own s.outputs s.store o
  stored : ∀ d v, s.store (.digest d) = some v → StoredAs p known signed s.outputs d v
  known : known current

variable {p known signed} {signed' : PublicKey → Digest → Prop}
  {outputs outputs' : List (Output PublicKey Digest Signature)}
  {store store' : Store PublicKey Digest Signature}
  {own own' : Header PublicKey Digest Signature → Prop}
  {current h : Header PublicKey Digest Signature} {c : Certificate PublicKey Digest Signature}
  {s : State PublicKey Digest Signature}

/-! ## More signatures, more outputs -/

omit [Inhabited PublicKey] [Inhabited Digest] [Inhabited Signature]
  [Ed25519 PublicKey Digest Signature] in
theorem Attested.mono {name : PublicKey} {d : Digest} (ha : Attested p signed outputs name d)
    (hs : ∀ name d, signed name d → signed' name d) (ho : outputs ⊆ outputs') :
    Attested p signed' outputs' name d :=
  Or.imp (hs name d) (fun hv => ⟨hv.1, hv.2.imp fun _ hv' => ⟨ho hv'.1, hv'.2⟩⟩) ha

omit [Inhabited PublicKey] [Inhabited Digest] [Inhabited Signature] in
theorem Genuine.mono {signature : Signature} {d : Digest} {name : PublicKey}
    (hg : Genuine p signed outputs signature d name)
    (hs : ∀ name d, signed name d → signed' name d) (ho : outputs ⊆ outputs') :
    Genuine p signed' outputs' signature d name :=
  fun hv => (hg hv).mono hs ho

theorem Accepted.mono (ha : Accepted p known signed outputs c)
    (hs : ∀ name d, signed name d → signed' name d) (ho : outputs ⊆ outputs') :
    Accepted p known signed' outputs' c :=
  ⟨ha.known, ha.verified, fun x hx => (ha.genuine x hx).mono hs ho⟩

theorem Supported.mono (hsup : Supported p known signed outputs store h)
    (hs : ∀ name d, signed name d → signed' name d) (ho : outputs ⊆ outputs')
    (hr : Retains store store') : Supported p known signed' outputs' store' h where
  parents := by
    obtain ⟨parents, hmap, haccepted, hrest⟩ := hsup.parents
    exact ⟨parents, hmap, fun c hc => (haccepted c hc).imp_right fun ha => ha.mono hs ho, hrest⟩
  held d hd := (hsup.held d hd).imp_right fun ⟨c, hc⟩ => hr.certificate d c hc

omit [AsBytes PublicKey] [AsBytes Digest] [Sha512 Digest] [Inhabited PublicKey] [Inhabited Digest]
  [Inhabited Signature] [Ed25519 PublicKey Digest Signature] in
theorem PayloadHeld.mono (hp : PayloadHeld p store h) (hr : Retains store store') :
    PayloadHeld p store' h :=
  hp.imp_right fun hall x hx => hr.payload _ _ (hall x hx)

theorem Examined.mono (he : Examined p known signed outputs store h)
    (hs : ∀ name d, signed name d → signed' name d) (ho : outputs ⊆ outputs')
    (hr : Retains store store') : Examined p known signed' outputs' store' h where
  identified := he.identified
  positive := he.positive
  supported := he.supported.mono hs ho hr
  payload := he.payload.mono hr
  stored := he.stored.elim fun h' hh => hr.header _ h' hh
  known := he.known

theorem StoredAs.mono {d : Digest} {v : StoreValue PublicKey Digest Signature}
    (hv : StoredAs p known signed outputs d v)
    (hs : ∀ name d, signed name d → signed' name d) (ho : outputs ⊆ outputs') :
    StoredAs p known signed' outputs' d v := by
  cases v with
  | header h => exact hv
  | certificate c => exact ⟨hv.1, hv.2.mono hs ho⟩
  | accountCounts counts => exact hv

theorem Justified.mono {o : Output PublicKey Digest Signature}
    (hj : Justified p known signed own outputs store o) (hown : ∀ h, own h → own' h)
    (hs : ∀ name d, signed name d → signed' name d) (ho : outputs ⊆ outputs')
    (hr : Retains store store') : Justified p known signed' own' outputs' store' o := by
  cases o with
  | syncBatches missing h => exact hj
  | syncParents missing h => exact hj
  | syncCertificate c => exact Accepted.mono hj hs ho
  | newCertificate c => exact Accepted.mono hj hs ho
  | createdVote v =>
      obtain ⟨h, hv, he⟩ := hj
      exact ⟨h, hv, he.mono hs ho hr⟩
  | broadcastHeader h => exact hown h hj
  | broadcastCertificate c => trivial
  | sendVote v => trivial
  | newParents parents round => trivial

theorem EvidenceInv.mono (hi : EvidenceInv p known signed own current s)
    (hs : ∀ name d, signed name d → signed' name d) :
    EvidenceInv p known signed' own current s where
  header := hi.header
  votes x hx := (hi.votes x hx).mono hs (List.Subset.refl _)
  outputs o ho := (hi.outputs o ho).mono (fun _ => id) hs (List.Subset.refl _) (Retains.refl _)
  stored d v hv := (hi.stored d v hv).mono hs (List.Subset.refl _)
  known := hi.known

/-! ## One change of the state -/

theorem EvidenceInv.frame {s' : State PublicKey Digest Signature}
    (hi : EvidenceInv p known signed own current s) (hc : s'.currentHeader = s.currentHeader)
    (hv : s'.votesAggregator = s.votesAggregator) (ho : s'.outputs = s.outputs)
    (hs : s'.store = s.store) : EvidenceInv p known signed own current s' where
  header := hc.trans hi.header
  votes := by
    rw [hv, ho]
    exact hi.votes
  outputs := by
    rw [ho, hs]
    exact hi.outputs
  stored := by
    rw [ho, hs]
    exact hi.stored
  known := hi.known

theorem EvidenceInv.send (hi : EvidenceInv p known signed own current s)
    {o : Output PublicKey Digest Signature}
    (ho : Justified p known signed own s.outputs s.store o) :
    EvidenceInv p known signed own current { s with outputs := s.outputs ++ [o] } := by
  have hsub : s.outputs ⊆ s.outputs ++ [o] := List.subset_append_left _ _
  refine ⟨hi.header, fun x hx => (hi.votes x hx).mono (fun _ _ => id) hsub, fun o' ho' => ?_,
    fun d v hv => (hi.stored d v hv).mono (fun _ _ => id) hsub, hi.known⟩
  have hold : Justified p known signed own s.outputs s.store o' := by
    rcases List.mem_append.mp ho' with ho' | ho'
    · exact hi.outputs o' ho'
    · rwa [List.mem_singleton.mp ho']
  exact hold.mono (fun _ => id) (fun _ _ => id) hsub (Retains.refl _)

theorem EvidenceInv.write (hi : EvidenceInv p known signed own current s) {k : StoreKey Digest}
    {v : StoreValue PublicKey Digest Signature}
    (hr : Retains s.store (Function.update s.store k (some v)))
    (hk : ∀ d, k = .digest d → StoredAs p known signed s.outputs d v) :
    EvidenceInv p known signed own current (s.write k v) where
  header := hi.header
  votes := hi.votes
  outputs o ho :=
    (hi.outputs o ho).mono (fun _ => id) (fun _ _ => id) (List.Subset.refl _) hr
  stored d v' hv' := by
    by_cases hd : k = .digest d
    · simp only [State.write, hd, Function.update_self, Option.some.injEq] at hv'
      exact hv' ▸ hk d hd
    · simp only [State.write, Function.update_of_ne (Ne.symm hd)] at hv'
      exact hi.stored d v' hv'
  known := hi.known

/-- The ids of headers are no digests of certificates. -/
def Apart (known : Header PublicKey Digest Signature → Prop) : Prop :=
  ∀ h h', known h → known h' → h.id ≠ voteDigest h'

theorem EvidenceInv.retains_header (hi : EvidenceInv p known signed own current s)
    (hapart : Apart known) (hk : known h) :
    Retains s.store (Function.update s.store (.digest h.id) (some (.header h))) := by
  refine Core.retains_header h fun c hc => ?_
  obtain ⟨hdigest, haccepted⟩ := hi.stored _ _ hc
  exact hapart h c.header hk haccepted.known hdigest.symm

theorem EvidenceInv.retains_certificate (hi : EvidenceInv p known signed own current s)
    (hapart : Apart known) (hk : known c.header) :
    Retains s.store (Function.update s.store (.digest c.digest) (some (.certificate c))) := by
  refine Core.retains_certificate c fun h hh => ?_
  obtain ⟨hknown, -, hid⟩ := hi.stored _ _ hh
  exact hapart h c.header hknown hk hid

/-! ## Parents -/

omit [Ed25519 PublicKey Digest Signature] in
/-- The parents that are read, if none is missing. -/
theorem readParents_sound {l : List Digest}
    {parents : List (Certificate PublicKey Digest Signature)}
    (hdigest : ∀ d c, store (.digest d) = some (.certificate c) → c.digest = d)
    (hok : readParents p store l = .ok (parents, [])) :
    parents.map Certificate.digest = l ∧
    (∀ c ∈ parents, c ∈ Certificate.genesis p.committee ∨
      store (.digest c.digest) = some (.certificate c)) ∧
    ∀ d ∈ l, d ∈ genesisDigests p.committee Signature ∨
      ∃ c, store (.digest d) = some (.certificate c) := by
  induction l generalizing parents with
  | nil =>
      obtain ⟨rfl, -⟩ := Prod.mk.inj (Except.ok.inj hok)
      simp
  | cons d l ih =>
      rw [readParents] at hok
      cases hrest : readParents p store l with
      | error e =>
          rw [hrest] at hok
          split at hok
          · cases hok
          · split at hok <;> cases hok
      | ok x =>
          obtain ⟨others, missing⟩ := x
          rw [hrest] at hok
          cases hgen : (findGenesis p d : Option (Certificate PublicKey Digest Signature)) with
          | some g =>
              simp only [hgen, bind, Except.bind, Except.ok.injEq, Prod.mk.injEq] at hok
              obtain ⟨rfl, rfl⟩ := hok
              obtain ⟨hmap, hfrom, hheld⟩ := ih hrest
              have hg : g.digest = d := by simpa [findGenesis] using List.find?_some hgen
              have hmem : g ∈ Certificate.genesis p.committee := List.mem_of_find?_eq_some hgen
              refine ⟨by rw [List.map_cons, hmap, hg], ?_, ?_⟩
              · rintro c (_ | ⟨_, hc⟩)
                · exact Or.inl hmem
                · exact hfrom c hc
              · rintro d' (_ | ⟨_, hd'⟩)
                · exact Or.inl (List.mem_map.mpr ⟨g, hmem, hg⟩)
                · exact hheld d' hd'
          | none =>
              cases hsto : store (.digest d) with
              | none =>
                  simp only [hgen, hsto, bind, Except.bind, Except.ok.injEq, Prod.mk.injEq] at hok
                  cases hok.2
              | some v =>
                  cases v with
                  | header h => simp [hgen, hsto] at hok
                  | accountCounts counts => simp [hgen, hsto] at hok
                  | certificate c =>
                      simp only [hgen, hsto, bind, Except.bind, Except.ok.injEq,
                        Prod.mk.injEq] at hok
                      obtain ⟨rfl, rfl⟩ := hok
                      obtain ⟨hmap, hfrom, hheld⟩ := ih hrest
                      have hc := hdigest d c hsto
                      refine ⟨by rw [List.map_cons, hmap, hc], ?_, ?_⟩
                      · rintro c' (_ | ⟨_, hc'⟩)
                        · exact Or.inr (by rw [hc, hsto])
                        · exact hfrom c' hc'
                      · rintro d' (_ | ⟨_, hd'⟩)
                        · exact Or.inr ⟨c, hsto⟩
                        · exact hheld d' hd'

omit [AsBytes PublicKey] [AsBytes Digest] [Sha512 Digest] [Inhabited PublicKey] [Inhabited Digest]
  [Inhabited Signature] [Ed25519 PublicKey Digest Signature] in
/-- Parents that pass are of the round before, and weigh at least what is returned. -/
theorem le_sum_of_checkParents {parents : List (Certificate PublicKey Digest Signature)}
    {w w' : ℕ} (hok : checkParents p h parents w = .ok w') :
    (∀ c ∈ parents, c.round + 1 = h.round) ∧
      w' ≤ w + (parents.map fun c => p.committee.stake c.origin).sum := by
  induction parents generalizing w with
  | nil =>
      obtain rfl := Except.ok.inj hok
      simp
  | cons c parents ih =>
      obtain ⟨hround, hok⟩ := ensure_bind_eq_ok.mp hok
      obtain ⟨hrounds, hle⟩ := ih hok
      have hmod : u32 (w + p.committee.stake c.origin) ≤ w + p.committee.stake c.origin :=
        Nat.mod_le _ _
      refine ⟨?_, ?_⟩
      · rintro c' (_ | ⟨_, hc'⟩)
        · exact of_decide_eq_true hround
        · exact hrounds c' hc'
      · rw [List.map_cons, List.sum_cons]
        omega

/-- The header whose parents have been read and checked. -/
theorem EvidenceInv.supported (hi : EvidenceInv p known signed own current s)
    {parents : List (Certificate PublicKey Digest Signature)} {stake : ℕ}
    (hread : readParents p s.store h.parents.toList = .ok (parents, []))
    (hcheck : checkParents p h parents 0 = .ok stake)
    (hquorum : p.committee.quorumThreshold ≤ stake) :
    Supported p known signed s.outputs s.store h := by
  obtain ⟨hmap, hfrom, hheld⟩ := readParents_sound (fun d c hc => (hi.stored d _ hc).1) hread
  obtain ⟨hrounds, hle⟩ := le_sum_of_checkParents hcheck
  refine ⟨⟨parents, hmap, fun c hc => (hfrom c hc).imp_right fun hs => ?_, hrounds, by omega⟩,
    hheld⟩
  exact (hi.stored _ _ hs).2

/-! ## What each function keeps -/

section Triples

variable (p known signed own current)

/-- `Core` itself assembled a certificate that does not verify. -/
def Invalid (s : State PublicKey Digest Signature) : Prop :=
  ∃ c, .broadcastCertificate c ∈ s.outputs ∧ c.verify p.committee ≠ .ok ()

/-- The invariant, as long as what `Core` assembles verifies. -/
def Evident (s : State PublicKey Digest Signature) : Prop :=
  Invalid p s ∨ EvidenceInv p known signed own current s

/-- A certificate may be processed. -/
def Accepting (c : Certificate PublicKey Digest Signature)
    (s : State PublicKey Digest Signature) : Prop :=
  Invalid p s ∨
    EvidenceInv p known signed own current s ∧ Accepted p known signed s.outputs c

/-- `m` keeps the invariant, whether or not it returns an error. -/
def KeepsEvidence {α : Type} (m : M PublicKey Digest Signature α) : Prop :=
  ⦃fun s => ⌜Evident p known signed own current s⌝⦄ m
  ⦃post⟨fun _ s => ⌜Evident p known signed own current s⌝,
    fun _ s => ⌜Evident p known signed own current s⌝⟩⦄

variable {p known signed own current}

theorem Invalid.mono {s' : State PublicKey Digest Signature} (hi : Invalid p s)
    (hsub : s.outputs ⊆ s'.outputs) : Invalid p s' :=
  hi.imp fun _ hc => ⟨hsub hc.1, hc.2⟩

theorem Accepting.evident (ha : Accepting p known signed own current c s) :
    Evident p known signed own current s :=
  ha.imp_right And.left

theorem Evident.next {s' : State PublicKey Digest Signature}
    {own' : Header PublicKey Digest Signature → Prop}
    {current' : Header PublicKey Digest Signature}
    (hi : Evident p known signed own current s) (hsub : s.outputs ⊆ s'.outputs)
    (himp : EvidenceInv p known signed own current s →
      EvidenceInv p known signed own' current' s') :
    Evident p known signed own' current' s' :=
  Or.imp (fun hv => hv.mono hsub) himp hi

theorem Accepting.next {s' : State PublicKey Digest Signature}
    (ha : Accepting p known signed own current c s) (hsub : s.outputs ⊆ s'.outputs)
    (himp : EvidenceInv p known signed own current s →
      Accepted p known signed s.outputs c → EvidenceInv p known signed own current s') :
    Accepting p known signed own current c s' :=
  Or.imp (fun hv => hv.mono hsub)
    (fun hi => ⟨himp hi.1 hi.2, hi.2.mono (fun _ _ => id) hsub⟩) ha

variable (p known signed own current)

theorem keepsEvidence_send {o : Output PublicKey Digest Signature}
    (ho : ∀ outputs store, Justified p known signed own outputs store o) :
    KeepsEvidence p known signed own current (send o) := by
  unfold KeepsEvidence
  mvcgen [send]
  rename_i s hi _
  exact hi.next (List.subset_append_left _ _) fun he => he.send (ho _ _)

theorem keepsEvidence_markProcessing (h : Header PublicKey Digest Signature) :
    KeepsEvidence p known signed own current (markProcessing h) := by
  unfold KeepsEvidence
  mvcgen [markProcessing]
  rename_i s hi _
  exact hi.next (List.Subset.refl _) fun he => he.frame rfl rfl rfl rfl

theorem getParents_evidence (hk : known h) (hid : Identified h) :
    ⦃fun s => ⌜Evident p known signed own current s⌝⦄ getParents p h
    ⦃post⟨fun parents s => ⌜Evident p known signed own current s ∧ (parents ≠ [] →
        readParents p s.store h.parents.toList = .ok (parents, []))⌝,
      fun _ s => ⌜Evident p known signed own current s⌝⟩⦄ := by
  have hsend : ∀ missing,
      KeepsEvidence p known signed own current (send (.syncParents missing h)) :=
    fun _ => keepsEvidence_send p known signed own current fun _ _ => ⟨hk, hid⟩
  unfold KeepsEvidence at hsend
  mvcgen [getParents, orReturn, hsend]
  · rename_i s hi x hread hmissing
    obtain ⟨parents, missing⟩ := x
    obtain rfl : missing = [] := hmissing
    exact ⟨hi, fun _ => hread⟩
  · exact ⟨‹_›, fun hne => absurd rfl hne⟩

/-- The parents of the header have been checked, and its batches are there. -/
def Complete (h : Header PublicKey Digest Signature)
    (s : State PublicKey Digest Signature) : Prop :=
  Invalid p s ∨ EvidenceInv p known signed own current s ∧
    Supported p known signed s.outputs s.store h ∧ PayloadHeld p s.store h

theorem missingPayload_evidence (hk : known h) (hid : Identified h) :
    ⦃fun s => ⌜Invalid p s ∨ EvidenceInv p known signed own current s ∧
        Supported p known signed s.outputs s.store h⌝⦄ missingPayload p h
    ⦃post⟨fun missing s => ⌜Evident p known signed own current s ∧
        (missing = false → Complete p known signed own current h s)⌝,
      fun _ s => ⌜Evident p known signed own current s⌝⟩⦄ := by
  have hsend : ∀ missing,
      KeepsEvidence p known signed own current (send (.syncBatches missing h)) :=
    fun _ => keepsEvidence_send p known signed own current fun _ _ => ⟨hk, hid⟩
  unfold KeepsEvidence at hsend
  mvcgen [missingPayload, hsend]
  · rename_i hname s hi
    exact ⟨hi.imp_right And.left, hi.imp_right fun he => ⟨he.1, he.2, Or.inl hname⟩⟩
  · rename_i s hi missing hmissing
    refine ⟨hi.imp_right And.left, hi.imp_right fun he => ⟨he.1, he.2, Or.inr ?_⟩⟩
    intro x hx
    have hnot := List.filter_eq_nil_iff.mp hmissing x hx
    simpa [Option.isSome_iff_ne_none] using hnot
  · rename_i s hi missing _
    exact hi.imp_right And.left
  · exact ⟨‹_›, fun hfalse => by cases hfalse⟩

/-- A vote may be counted for the current header. -/
def Creditable (v : Vote PublicKey Digest Signature)
    (s : State PublicKey Digest Signature) : Prop :=
  Invalid p s ∨ EvidenceInv p known signed own current s ∧
    Genuine p signed s.outputs v.signature (voteDigest current) v.author

/-- `process_header` has checked the header. -/
def Checked (h : Header PublicKey Digest Signature)
    (s : State PublicKey Digest Signature) : Prop :=
  Invalid p s ∨ EvidenceInv p known signed own current s ∧
    Examined p known signed s.outputs s.store h

theorem writeHeader_evidence (hapart : Apart known) (hk : known h) (hid : Identified h) :
    ⦃fun s => ⌜Complete p known signed own current h s ∧ h.round ≠ 0⌝⦄
    writeStore (.digest h.id) (.header h)
    ⦃post⟨fun _ s => ⌜Checked p known signed own current h s⌝,
      fun _ s => ⌜Evident p known signed own current s⌝⟩⦄ := by
  mvcgen [writeStore]
  rename_i s hs _
  obtain ⟨hi, hround⟩ := hs
  refine hi.imp (fun hv => hv.mono (List.Subset.refl _)) ?_
  rintro ⟨he, hsup, hpay⟩
  have hr := he.retains_header hapart hk
  have hdigest := hid.resolve_right hround
  refine ⟨he.write hr fun d hd => ⟨hk, hdigest, StoreKey.digest.inj hd⟩, hdigest, hround,
    hsup.mono (fun _ _ => id) (List.Subset.refl _) hr, hpay.mono hr, ⟨h, ?_⟩, hk⟩
  exact Function.update_self ..

/-- Our vote for a header that has been checked. -/
theorem createVote_evidence
    (hsign : ∀ d d' : Digest,
      Ed25519.verify (Ed25519.sign d p.name : Signature) d' p.name = true → d = d') :
    ⦃fun s => ⌜Checked p known signed own current h s⌝⦄ createVote p h
    ⦃post⟨fun o s => ⌜Evident p known signed own current s ∧
        ∀ v, o = some v → Creditable p known signed own current v s⌝,
      fun _ s => ⌜Evident p known signed own current s⌝⟩⦄ := by
  mvcgen [createVote, send]
  · rename_i s hs _
    exact ⟨hs.imp_right And.left, by simp⟩
  · rename_i s hs _ _ _
    have hsub : s.outputs ⊆ s.outputs ++ [.createdVote (Vote.new h p.name)] :=
      List.subset_append_left _ _
    have hsent : EvidenceInv p known signed own current s ∧
        Examined p known signed s.outputs s.store h →
        EvidenceInv p known signed own current { s with
          lastVoted := Function.update s.lastVoted h.round (h.author :: s.lastVoted h.round)
          outputs := s.outputs ++ [.createdVote (Vote.new h p.name)] } := by
      rintro ⟨he, hex⟩
      exact (he.send (o := .createdVote (Vote.new h p.name)) ⟨h, rfl, hex⟩).frame rfl rfl rfl rfl
    refine ⟨hs.imp (fun hv => hv.mono hsub) hsent, fun v hv => ?_⟩
    refine hs.imp (fun hv => hv.mono hsub) fun he => ⟨hsent he, ?_⟩
    obtain rfl := Option.some.inj hv
    intro hverify
    -- a signature of ours verifies for what we signed only
    have hdigest : voteDigest h = voteDigest current := hsign _ _ hverify
    exact Or.inr ⟨rfl, Vote.new h p.name, List.mem_append_right _ (List.mem_singleton.mpr rfl),
      hdigest⟩

/-- Appending a vote to the aggregator of the current header. -/
theorem appendVote_evidence (v : Vote PublicKey Digest Signature) :
    ⦃fun s => ⌜Creditable p known signed own current v s⌝⦄ appendVote p v
    ⦃post⟨fun o s => ⌜Evident p known signed own current s ∧ ∀ c, o = some c → Invalid p s ∨
        EvidenceInv p known signed own current s ∧ known c.header ∧
          ∀ x ∈ c.votes, Genuine p signed s.outputs x.2 c.digest x.1⌝,
      fun _ s => ⌜Evident p known signed own current s⌝⟩⦄ := by
  mvcgen [appendVote, orReturn]
  · rename_i s hs agg hok
    obtain ⟨agg', o⟩ := agg
    have hnext : EvidenceInv p known signed own current s ∧
        Genuine p signed s.outputs v.signature (voteDigest current) v.author →
        EvidenceInv p known signed own current { s with votesAggregator := agg' } := by
      rintro ⟨he, hg⟩
      refine { he with votes := fun x hx => ?_ }
      rw [(VotesAggregator.append_cases hok).2.2.1] at hx
      rcases List.mem_append.mp hx with hx | hx
      · exact he.votes x hx
      · rwa [List.mem_singleton.mp hx]
    refine ⟨hs.imp (fun hv => hv.mono (List.Subset.refl _)) hnext, ?_⟩
    rintro c hc
    obtain rfl : o = some c := hc
    refine hs.imp (fun hv => hv.mono (List.Subset.refl _)) fun he => ⟨hnext he, ?_⟩
    have hheader : c.header = current :=
      (VotesAggregator.header_of_append hok).trans he.1.header
    refine ⟨hheader ▸ he.1.known, fun x hx => ?_⟩
    have hdigest : c.digest = voteDigest current := congrArg voteDigest hheader
    rw [hdigest]
    refine (hnext he).votes x ?_
    rcases (VotesAggregator.append_cases hok).2.2.2 with ⟨-, -, hsome⟩ | ⟨-, hnone⟩
    · rwa [Option.some.inj hsome] at hx
    · cases hnone
  · rename_i s hs _ _
    exact hs.imp_right And.left

/-- Broadcasting a certificate that has been assembled. -/
theorem broadcast_evidence (c : Certificate PublicKey Digest Signature) :
    ⦃fun s => ⌜Invalid p s ∨ EvidenceInv p known signed own current s ∧ known c.header ∧
        ∀ x ∈ c.votes, Genuine p signed s.outputs x.2 c.digest x.1⌝⦄
    send (.broadcastCertificate c)
    ⦃post⟨fun _ s => ⌜Accepting p known signed own current c s⌝,
      fun _ s => ⌜Evident p known signed own current s⌝⟩⦄ := by
  mvcgen [send]
  rename_i s hs _
  have hsub : s.outputs ⊆ s.outputs ++ [.broadcastCertificate c] := List.subset_append_left _ _
  rcases hs with hv | ⟨he, hk, hgenuine⟩
  · exact Or.inl (hv.mono hsub)
  · by_cases hverify : c.verify p.committee = .ok ()
    · refine Or.inr ⟨he.send (o := .broadcastCertificate c) trivial, hk, hverify, fun x hx => ?_⟩
      exact (hgenuine x hx).mono (fun _ _ => id) hsub
    · exact Or.inl ⟨c, List.mem_append_right _ (List.mem_singleton.mpr rfl), hverify⟩

/-! ## Certificates and votes -/

section Nested

variable {f : Header PublicKey Digest Signature → M PublicKey Digest Signature Unit}

/-- What keeps the invariant, and takes no output back, keeps a certificate acceptable. -/
theorem KeepsEvidence.accepting {m : M PublicKey Digest Signature Unit}
    (hm : KeepsEvidence p known signed own current m) (hout : ∀ o, KeepsOutput o m)
    (c : Certificate PublicKey Digest Signature) :
    ⦃fun s => ⌜Accepting p known signed own current c s⌝⦄ m
    ⦃post⟨fun _ s => ⌜Accepting p known signed own current c s⌝,
      fun _ s => ⌜Accepting p known signed own current c s⌝⟩⦄ := by
  refine triple_of_run (Q := fun _ => Accepting p known signed own current c)
    (E := fun _ => Accepting p known signed own current c) fun s hs => ?_
  have hi := inv_of_triple hm s hs.evident
  have hsub : s.outputs ⊆ (m.run.run s).2.outputs := fun o ho => inv_of_triple (hout o) s ho
  generalize m.run.run s = x at hi hsub ⊢
  obtain ⟨result, s'⟩ := x
  have hafter : Accepting p known signed own current c s' := by
    rcases hs with hv | ⟨-, ha⟩
    · exact Or.inl (hv.mono hsub)
    · exact hi.imp_right fun he => ⟨he, ha.mono (fun _ _ => id) hsub⟩
  cases result with
  | ok a => exact hafter
  | error e => exact hafter

theorem deliverCertificate_evidence (c : Certificate PublicKey Digest Signature) :
    ⦃fun s => ⌜Accepting p known signed own current c s⌝⦄ deliverCertificate p c
    ⦃post⟨fun _ s => ⌜Accepting p known signed own current c s⌝,
      fun _ s => ⌜Accepting p known signed own current c s⌝⟩⦄ := by
  mvcgen [deliverCertificate, send]
  rename_i s hs _ _
  exact hs.next (List.subset_append_left _ _) fun he ha => he.send (o := .syncCertificate c) ha

theorem writeCertificate_evidence (hapart : Apart known)
    (c : Certificate PublicKey Digest Signature) :
    ⦃fun s => ⌜Accepting p known signed own current c s⌝⦄
    writeStore (.digest c.digest) (.certificate c)
    ⦃post⟨fun _ s => ⌜Accepting p known signed own current c s⌝,
      fun _ s => ⌜Accepting p known signed own current c s⌝⟩⦄ := by
  mvcgen [writeStore]
  rename_i s hs _
  refine hs.next (List.Subset.refl _) fun he ha => ?_
  exact he.write (he.retains_certificate hapart ha.known) fun d hd =>
    ⟨StoreKey.digest.inj hd, ha⟩

theorem appendCertificate_evidence (c : Certificate PublicKey Digest Signature) :
    ⦃fun s => ⌜Accepting p known signed own current c s⌝⦄ appendCertificate p c
    ⦃post⟨fun _ s => ⌜Accepting p known signed own current c s⌝,
      fun _ s => ⌜Accepting p known signed own current c s⌝⟩⦄ := by
  mvcgen [appendCertificate]
  rename_i s hs _
  exact hs.next (List.Subset.refl _) fun he _ => he.frame rfl rfl rfl rfl

theorem newParents_evidence (c : Certificate PublicKey Digest Signature)
    (parents : List Digest) (round : ℕ) :
    ⦃fun s => ⌜Accepting p known signed own current c s⌝⦄ send (.newParents parents round)
    ⦃post⟨fun _ s => ⌜Accepting p known signed own current c s⌝,
      fun _ s => ⌜Accepting p known signed own current c s⌝⟩⦄ := by
  mvcgen [send]
  rename_i s hs _
  exact hs.next (List.subset_append_left _ _) fun he _ => he.send trivial

theorem newCertificate_evidence (c : Certificate PublicKey Digest Signature) :
    ⦃fun s => ⌜Accepting p known signed own current c s⌝⦄ send (.newCertificate c)
    ⦃post⟨fun _ s => ⌜Accepting p known signed own current c s⌝,
      fun _ s => ⌜Accepting p known signed own current c s⌝⟩⦄ := by
  mvcgen [send]
  rename_i s hs _
  exact hs.next (List.subset_append_left _ _) fun he ha => he.send (o := .newCertificate c) ha

theorem processCertificateWith_evidence (hapart : Apart known)
    (hf : ∀ h, known h → Identified h → KeepsEvidence p known signed own current (f h))
    (hout : ∀ o h, KeepsOutput o (f h)) (hk : known c.header)
    (hv : c.verify p.committee = .ok ()) :
    ⦃fun s => ⌜Accepting p known signed own current c s⌝⦄ processCertificateWith p f c
    ⦃post⟨fun _ s => ⌜Accepting p known signed own current c s⌝,
      fun _ s => ⌜Accepting p known signed own current c s⌝⟩⦄ := by
  have hheader := (hf c.header hk (identified_of_verify p hv)).accepting p known signed own current
    (fun o => hout o c.header) c
  have hdeliver := deliverCertificate_evidence p known signed own current c
  have hwrite := writeCertificate_evidence p known signed own current hapart c
  have happend := appendCertificate_evidence p known signed own current c
  have hparents := newParents_evidence p known signed own current c
  have hnew := newCertificate_evidence p known signed own current c
  mvcgen [processCertificateWith, hheader, hdeliver, hwrite, happend, hparents, hnew]

/-- The same for a certificate that has been assembled, if it verifies. -/
theorem keepsEvidence_assembled (hapart : Apart known)
    (hf : ∀ h, known h → Identified h → KeepsEvidence p known signed own current (f h))
    (hout : ∀ o h, KeepsOutput o (f h)) (c : Certificate PublicKey Digest Signature) :
    ⦃fun s => ⌜Accepting p known signed own current c s⌝⦄ processCertificateWith p f c
    ⦃post⟨fun _ s => ⌜Evident p known signed own current s⌝,
      fun _ s => ⌜Evident p known signed own current s⌝⟩⦄ := by
  rintro s (⟨c', hc', hverify⟩ | ⟨he, ha⟩)
  · have key := keepsOutput_processCertificateWith p (.broadcastCertificate c') (hout _) c
    exact triple_mono key (fun _ hs => hs) (fun _ hs => Or.inl ⟨c', hs, hverify⟩) s hc'
  · have key := processCertificateWith_evidence p known signed own current hapart hf hout ha.known
      ha.verified
    exact triple_mono key (fun _ hs => hs) (fun _ hs => hs.evident) s (Or.inr ⟨he, ha⟩)

theorem processVoteWith_evidence (hapart : Apart known)
    (hf : ∀ h, known h → Identified h → KeepsEvidence p known signed own current (f h))
    (hout : ∀ o h, KeepsOutput o (f h)) (v : Vote PublicKey Digest Signature) :
    ⦃fun s => ⌜Creditable p known signed own current v s⌝⦄ processVoteWith p f v
    ⦃post⟨fun _ s => ⌜Evident p known signed own current s⌝,
      fun _ s => ⌜Evident p known signed own current s⌝⟩⦄ := by
  have happend := appendVote_evidence p known signed own current v
  have hsend := broadcast_evidence p known signed own current
  have hcert := keepsEvidence_assembled p known signed own current hapart hf hout
  mvcgen [processVoteWith, expect, happend, hsend, hcert]
  · rename_i hi
    exact hi.2 _ rfl
  · exact id
  · rename_i hi
    exact hi.1

end Nested

/-- `process_header` keeps the invariant. -/
theorem keepsEvidence_processHeader (hapart : Apart known)
    (hsign : ∀ d d' : Digest,
      Ed25519.verify (Ed25519.sign d p.name : Signature) d' p.name = true → d = d')
    (n : ℕ) (hk : known h) (hid : Identified h) :
    KeepsEvidence p known signed own current (processHeader p n h) := by
  induction n generalizing h with
  | zero =>
      unfold KeepsEvidence
      mvcgen [processHeader]
  | succ n ih =>
      have hmark := keepsEvidence_markProcessing p known signed own current h
      have hparents := getParents_evidence p known signed own current hk hid
      have hpayload := missingPayload_evidence p known signed own current hk hid
      have hwrite := writeHeader_evidence p known signed own current hapart hk hid
      have hcreate := createVote_evidence p known signed own current (h := h) hsign
      have hvote := processVoteWith_evidence p known signed own current hapart
        (fun _ => ih) fun o => keepsOutput_processHeader p o n
      have hsend : ∀ v : Vote PublicKey Digest Signature,
          KeepsEvidence p known signed own current (send (.sendVote v)) :=
        fun _ => keepsEvidence_send p known signed own current fun _ _ => trivial
      unfold KeepsEvidence at hmark hsend ⊢
      mvcgen [processHeader, orReturn, expect, hmark, hparents, hpayload, hwrite, hcreate, hvote,
        hsend]
      case vc4 =>
        rename_i hne s hs w hcheck _ hquorum
        refine hs.1.imp_right fun he => ⟨he, he.supported (hs.2 hne) hcheck ?_⟩
        exact of_decide_eq_true (ensure_eq_ok.mp hquorum)
      case vc6 =>
        rename_i hthere _ _ s hs _ _
        exact ⟨hs.2 (by simpa using hthere), round_ne_zero_of_checkParents ‹_› ‹_›⟩
      case vc16 =>
        rename_i hthere _ _ s hs
        exact ⟨hs.2 (by simpa using hthere), round_ne_zero_of_checkParents ‹_› ‹_›⟩
      case vc9 | vc19 =>
        rename_i hs
        exact hs.2 _ rfl
      case vc10 | vc20 => exact id
      all_goals exact (‹Evident p known signed own current _ ∧ _› : _ ∧ _).1

/-! ## Events -/

/-- What the rest of the system promises of an event: headers that verify are in play,
    signatures that verify are not forged, and the proposer makes headers with their digest
    as id. -/
def Authentic : Event PublicKey Digest Signature → Prop
  | .ownHeader h => known h ∧ h.digest = h.id
  | .primaryHeader h => h.verify p.committee = .ok () → known h
  | .primaryVote v => Genuine p signed [] v.signature v.digest v.author
  | .primaryCertificate c => c.verify p.committee = .ok () → Accepted p known signed [] c
  | _ => True

/-- The headers of our proposer after an event, and the last one. -/
def ownAfter (own : Header PublicKey Digest Signature → Prop) :
    Event PublicKey Digest Signature → Header PublicKey Digest Signature → Prop
  | .ownHeader h => fun x => own x ∨ x = h
  | _ => own

def currentAfter (current : Header PublicKey Digest Signature) :
    Event PublicKey Digest Signature → Header PublicKey Digest Signature
  | .ownHeader h => h
  | _ => current

theorem sanitizeHeader_evidence (h : Header PublicKey Digest Signature) :
    ⦃fun s => ⌜Evident p known signed own current s⌝⦄ sanitizeHeader p h
    ⦃post⟨fun _ s => ⌜Evident p known signed own current s ∧ h.verify p.committee = .ok ()⌝,
      fun _ s => ⌜Evident p known signed own current s⌝⟩⦄ := by
  mvcgen [sanitizeHeader, orReturn]

theorem sanitizeCertificate_evidence (c : Certificate PublicKey Digest Signature) :
    ⦃fun s => ⌜Evident p known signed own current s⌝⦄ sanitizeCertificate p c
    ⦃post⟨fun _ s => ⌜Evident p known signed own current s ∧ c.verify p.committee = .ok ()⌝,
      fun _ s => ⌜Evident p known signed own current s⌝⟩⦄ := by
  mvcgen [sanitizeCertificate, orReturn]

/-- A vote that passes `sanitize_vote` is for the current header. -/
theorem sanitizeVote_evidence {v : Vote PublicKey Digest Signature}
    (hv : Genuine p signed [] v.signature v.digest v.author) :
    ⦃fun s => ⌜Evident p known signed own current s⌝⦄ sanitizeVote p v
    ⦃post⟨fun _ s => ⌜Creditable p known signed own current v s⌝,
      fun _ s => ⌜Evident p known signed own current s⌝⟩⦄ := by
  mvcgen [sanitizeVote, orReturn]
  rename_i s hi _ _ _ hheader _ _
  refine hi.imp_right fun he => ⟨he, ?_⟩
  obtain ⟨hid, horigin, hround⟩ := of_decide_eq_true (ensure_eq_ok.mp hheader)
  have hdigest : v.digest = voteDigest current := by
    unfold Vote.digest voteDigest
    rw [hid, horigin, hround, he.header]
  rw [← hdigest]
  exact hv.mono (fun _ _ => id) (List.nil_subset _)

section Events

variable (hapart : Apart known)
  (hsign : ∀ d d' : Digest,
    Ed25519.verify (Ed25519.sign d p.name : Signature) d' p.name = true → d = d')

include hapart hsign

theorem processOwnHeader_evidence (hk : known h) (hid : h.digest = h.id) :
    ⦃fun s => ⌜Evident p known signed own current s⌝⦄ processOwnHeader p h
    ⦃post⟨fun _ s => ⌜Evident p known signed (fun x => own x ∨ x = h) h s⌝,
      fun _ s => ⌜Evident p known signed (fun x => own x ∨ x = h) h s⌝⟩⦄ := by
  have hheader := keepsEvidence_processHeader p known signed (fun x => own x ∨ x = h) h hapart
    hsign recursionDepth hk (Or.inl hid)
  unfold KeepsEvidence at hheader
  mvcgen [processOwnHeader, send, hheader]
  rename_i s hi _ _
  refine hi.next (List.subset_append_left _ _) fun he => ?_
  have hstart : EvidenceInv p known signed (fun x => own x ∨ x = h) h
      { s with currentHeader := h, votesAggregator := VotesAggregator.new } := by
    refine ⟨rfl, by simp [VotesAggregator.new], fun o ho => ?_, he.stored, hk⟩
    exact (he.outputs o ho).mono (fun _ => Or.inl) (fun _ _ => id) (List.Subset.refl _)
      (Retains.refl _)
  exact hstart.send (o := .broadcastHeader h) (Or.inr rfl)

/-- Every branch of `select!` keeps the invariant. -/
theorem evident_handle (hi : Evident p known signed own current s)
    {e : Event PublicKey Digest Signature} (hok : Authentic p known signed e)
    (hh : ∀ h, e = .loopbackHeader h → known h ∧ Identified h)
    (hc : ∀ c, e = .loopbackCertificate c → Accepted p known signed s.outputs c) :
    Evident p known signed (ownAfter own e) (currentAfter current e)
      ((handle p e).run.run s).2 := by
  have hheader : ∀ h, known h → Identified h →
      KeepsEvidence p known signed own current (processHeader p recursionDepth h) :=
    fun _ => keepsEvidence_processHeader p known signed own current hapart hsign recursionDepth
  have hout : ∀ o (h : Header PublicKey Digest Signature),
      KeepsOutput o (processHeader p recursionDepth h) :=
    fun o => keepsOutput_processHeader p o recursionDepth
  have hcert : ∀ c : Certificate PublicKey Digest Signature, known c.header →
      c.verify p.committee = .ok () →
      ⦃fun s => ⌜Accepting p known signed own current c s⌝⦄ processCertificate p c
      ⦃post⟨fun _ s => ⌜Accepting p known signed own current c s⌝,
        fun _ s => ⌜Accepting p known signed own current c s⌝⟩⦄ :=
    fun c => processCertificateWith_evidence p known signed own current hapart hheader hout
  cases e with
  | primaryHeader h =>
      have hsanitize := sanitizeHeader_evidence p known signed own current h
      have hprocess : ⦃fun s => ⌜Evident p known signed own current s ∧
            h.verify p.committee = .ok ()⌝⦄ processHeader p recursionDepth h
          ⦃post⟨fun _ s => ⌜Evident p known signed own current s⌝,
            fun _ s => ⌜Evident p known signed own current s⌝⟩⦄ :=
        triple_of_imp fun hv => hheader h (hok hv) (Or.inl (Header.verify_eq_ok.mp hv).1)
      have key : KeepsEvidence p known signed own current (handle p (.primaryHeader h)) := by
        unfold KeepsEvidence
        mvcgen [handle, hsanitize, hprocess]
      exact inv_of_triple key s hi
  | primaryVote v =>
      have hsanitize := sanitizeVote_evidence p known signed own current hok
      have hvote := processVoteWith_evidence p known signed own current hapart hheader hout v
      have key : KeepsEvidence p known signed own current (handle p (.primaryVote v)) := by
        unfold KeepsEvidence
        mvcgen [handle, processVote, hsanitize, hvote]
      exact inv_of_triple key s hi
  | primaryCertificate c =>
      have hsanitize := sanitizeCertificate_evidence p known signed own current c
      have hprocess : ⦃fun s => ⌜Evident p known signed own current s ∧
            c.verify p.committee = .ok ()⌝⦄ processCertificate p c
          ⦃post⟨fun _ s => ⌜Evident p known signed own current s⌝,
            fun _ s => ⌜Evident p known signed own current s⌝⟩⦄ := by
        refine triple_of_imp fun hv => triple_mono (hcert c (hok hv).known hv) ?_
          fun _ hs => hs.evident
        exact fun s hs => hs.imp_right fun he =>
          ⟨he, (hok hv).mono (fun _ _ => id) (List.nil_subset _)⟩
      have key : KeepsEvidence p known signed own current (handle p (.primaryCertificate c)) := by
        unfold KeepsEvidence
        mvcgen [handle, hsanitize, hprocess]
      exact inv_of_triple key s hi
  | loopbackHeader h =>
      obtain ⟨hk, hid⟩ := hh h rfl
      exact inv_of_triple (hheader h hk hid) s hi
  | loopbackCertificate c =>
      have ha := hc c rfl
      have hafter := inv_of_triple (hcert c ha.known ha.verified) s
        (hi.imp_right fun he => ⟨he, ha⟩)
      exact hafter.evident
  | ownHeader h =>
      exact inv_of_triple
        (processOwnHeader_evidence p known signed own current hapart hsign hok.1 hok.2) s hi
  | othersBatch digest worker counts =>
      refine hi.next (List.Subset.refl _) fun he => ?_
      exact he.write (retains_payload digest worker _) fun d hd => by cases hd

/-- One iteration of the main loop keeps the invariant. -/
theorem Evident.step (hi : Evident p known signed own current s)
    {e : Event PublicKey Digest Signature} {round : ℕ} (hen : Enabled s e round)
    (hok : Authentic p known signed e) :
    Evident p known signed (ownAfter own e) (currentAfter current e) (step p s e round) := by
  have hkeep : Evident p known signed (ownAfter own e) (currentAfter current e)
      ((handle p e).run.run s).2 := by
    rcases hi with ⟨c, hc, hverify⟩ | he
    · exact Or.inl ⟨c, inv_of_triple (keepsOutput_handle p _ e) s hc, hverify⟩
    · refine evident_handle p known signed own current hapart hsign (Or.inr he) hok ?_ ?_
      · rintro h rfl
        rcases hen.2.2 with ⟨missing, hm⟩ | ⟨missing, hm⟩
        · exact he.outputs _ hm
        · exact he.outputs _ hm
      · rintro c rfl
        exact he.outputs _ hen.2.2
  refine step_of_handle p hkeep (fun s' hs' => ?_) (fun s' hs' => ?_) (fun s' hs' => hs')
  · exact hs'.next (List.Subset.refl _) fun he => he.frame rfl rfl rfl rfl
  · refine hs'.next (by simp) fun he => he.frame (by simp) ?_ (by simp) (by simp)
    unfold State.cleanup
    split <;> rfl

end Events

end Triples

/-- The state in which the task is spawned. -/
theorem EvidenceInv.initial
    (hk : known (default : Header PublicKey Digest Signature)) :
    EvidenceInv p known signed own default
      (State.initial : State PublicKey Digest Signature) where
  header := rfl
  votes := by simp [State.initial, VotesAggregator.new]
  outputs := by simp [State.initial]
  stored := by simp [State.initial]
  known := hk

end DagBft.Core
