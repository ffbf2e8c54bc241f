/-
  The `Helper` (`primary/src/helper.rs`), which answers the certificate requests of other
  primaries from the storage of `Core`.

  Certificates and headers are stored under digests alike, and the request does not say which
  it means. Whatever is found is read as a certificate: the bytes of a header end where its
  votes should begin, and the `expect` on the result panics. Batches are stored under longer
  keys, which no request names.

  `served_valid`: what honest primaries serve is certified. `certified_served`: a parent of a
  certified header is served by honest primaries with f+1 stake, if their `Helper`s are alive.
-/
import DagBft.Primary.Network

namespace DagBft.Primaries

open DagBft.Core

variable {PublicKey Digest Signature : Type} [LinearOrder PublicKey] [LinearOrder Digest]

/-- The `Helper`: whether it runs, and what it has sent to whom. -/
structure Helper (PublicKey Digest Signature : Type) [LinearOrder PublicKey]
    [LinearOrder Digest] where
  alive : Bool
  sent : List (PublicKey × Certificate PublicKey Digest Signature)

namespace Helper

def initial : Helper PublicKey Digest Signature := ⟨true, []⟩

/-- Reply to the request (the best we can). -/
def reply (store : Store PublicKey Digest Signature) (origin : PublicKey) :
    List Digest → Helper PublicKey Digest Signature → Helper PublicKey Digest Signature
  | [], s => s
  | digest :: digests, s =>
      match store (.digest digest) with
      | none => reply store origin digests s
      | some (.certificate certificate) =>
          reply store origin digests { s with sent := s.sent ++ [(origin, certificate)] }
      -- "Failed to deserialize our own certificate"
      | some _ => { s with alive := false }

/-- One iteration of the loop: an unexpected request is only logged. -/
def step (committee : Committee PublicKey) (store : Store PublicKey Digest Signature)
    (digests : List Digest) (origin : PublicKey) (s : Helper PublicKey Digest Signature) :
    Helper PublicKey Digest Signature :=
  if s.alive = true ∧ origin ∈ committee.keys then s.reply store origin digests else s

end Helper

/-- The certificate that is stored under a digest. -/
def certificateAt (store : Store PublicKey Digest Signature) (digest : Digest) :
    Option (Certificate PublicKey Digest Signature) :=
  match store (.digest digest) with
  | some (.certificate certificate) => some certificate
  | _ => none

/-- Nothing but certificates is stored under the digests. -/
def Answerable (store : Store PublicKey Digest Signature) (digests : List Digest) : Prop :=
  ∀ digest ∈ digests, store (.digest digest) = none ∨
    ∃ certificate, store (.digest digest) = some (.certificate certificate)

variable {store : Store PublicKey Digest Signature} {digests : List Digest} {origin : PublicKey}
  {s : Helper PublicKey Digest Signature} {committee : Committee PublicKey}

omit [LinearOrder PublicKey] in
theorem certificateAt_eq_some {digest : Digest} {c : Certificate PublicKey Digest Signature} :
    certificateAt store digest = some c ↔ store (.digest digest) = some (.certificate c) := by
  unfold certificateAt
  split
  · rename_i certificate hc
    rw [hc, Option.some.injEq, Option.some.injEq, StoreValue.certificate.injEq]
  · rename_i hnot
    exact ⟨(by intro h; cases h), fun h => absurd h (hnot c)⟩

/-- A reply that does not end in a panic. -/
theorem reply_of_answerable (h : Answerable store digests) :
    s.reply store origin digests =
      { s with sent := s.sent ++ (digests.filterMap (certificateAt store)).map (origin, ·) } := by
  induction digests generalizing s with
  | nil => simp [Helper.reply]
  | cons digest digests ih =>
      unfold Answerable at h
      rw [List.forall_mem_cons] at h
      obtain ⟨hfirst, hrest⟩ := h
      rcases hfirst with hnone | ⟨c, hc⟩
      · have hat : certificateAt store digest = none := by simp [certificateAt, hnone]
        rw [Helper.reply, hnone, List.filterMap_cons_none hat]
        exact ih hrest
      · have hat : certificateAt store digest = some c := by simp [certificateAt, hc]
        rw [Helper.reply, hc, List.filterMap_cons_some hat]
        dsimp only
        rw [ih hrest, List.map_cons, List.append_assoc]
        rfl

theorem alive_reply : (s.reply store origin digests).alive = true ↔
    s.alive = true ∧ Answerable store digests := by
  induction digests generalizing s with
  | nil => simp [Helper.reply, Answerable]
  | cons digest digests ih =>
      unfold Answerable at ih ⊢
      rw [List.forall_mem_cons]
      unfold Helper.reply
      split
      · rename_i hnone
        rw [ih]
        simp [hnone]
      · rename_i c hc
        rw [ih]
        simp [hc]
      · rename_i v hnot hv
        have hfalse : ¬ (store (.digest digest) = none ∨
            ∃ c, store (.digest digest) = some (.certificate c)) := by
          rintro (hnone | ⟨c, hc⟩)
          · rw [hv] at hnone
            cases hnone
          · rw [hv] at hc
            exact hnot c (Option.some.inj hc)
        exact ⟨(by intro h; cases h), fun h => absurd h.2.1 hfalse⟩

/-- What is sent, whether or not the reply ends in a panic, is stored. -/
theorem mem_sent_reply {x : PublicKey × Certificate PublicKey Digest Signature}
    (hx : x ∈ (s.reply store origin digests).sent) : x ∈ s.sent ∨
      x.1 = origin ∧ ∃ digest ∈ digests, store (.digest digest) = some (.certificate x.2) := by
  induction digests generalizing s with
  | nil => exact Or.inl hx
  | cons digest digests ih =>
      have hlater : (x.1 = origin ∧ ∃ d ∈ digests, store (.digest d) = some (.certificate x.2)) →
          x.1 = origin ∧ ∃ d ∈ digest :: digests, store (.digest d) = some (.certificate x.2) :=
        fun ⟨ho, d, hd, hc⟩ => ⟨ho, d, List.mem_cons_of_mem _ hd, hc⟩
      unfold Helper.reply at hx
      split at hx
      · exact (ih hx).imp_right hlater
      · rename_i c hc
        rcases ih hx with hold | hnew
        · rcases List.mem_append.mp hold with hold | hone
          · exact Or.inl hold
          · obtain rfl := List.mem_singleton.mp hone
            exact Or.inr ⟨rfl, digest, List.mem_cons_self, hc⟩
        · exact Or.inr (hlater hnew)
      · exact Or.inl hx

/-! ## Requests between primaries -/

variable [AsBytes PublicKey] [AsBytes Digest] [Sha512 Digest]
  [Inhabited PublicKey] [Inhabited Digest] [Inhabited Signature]
  [Ed25519 PublicKey Digest Signature]

/-- The states that the primaries and their `Helper`s go through, under a condition as in
    `Setting.Run`. Anybody may send requests. -/
inductive Setting.Serves (w : Setting PublicKey)
    (known : Header PublicKey Digest Signature → Prop)
    (C : PublicKey → Core.State PublicKey Digest Signature →
      Event PublicKey Digest Signature → Prop) :
    States PublicKey Digest Signature → (PublicKey → Helper PublicKey Digest Signature) → Prop
  | initial : Serves w known C (fun _ => Core.State.initial) fun _ => Helper.initial
  | core {cores : States PublicKey Digest Signature}
      {helpers : PublicKey → Helper PublicKey Digest Signature}
      (run : Serves w known C cores helpers)
      (name : PublicKey) (honest : name ∈ w.honest) (e : Event PublicKey Digest Signature)
      (round : ℕ) (enabled : Enabled (cores name) e round)
      (received : w.Received known cores name e) (cond : C name (cores name) e) :
      Serves w known C (cores.after w name e round) helpers
  | request {cores : States PublicKey Digest Signature}
      {helpers : PublicKey → Helper PublicKey Digest Signature}
      (run : Serves w known C cores helpers)
      (name : PublicKey) (honest : name ∈ w.honest) (digests : List Digest) (origin : PublicKey) :
      Serves w known C cores (Function.update helpers name
        ((helpers name).step w.committee (cores name).store digests origin))

variable {w : Setting PublicKey} {known : Header PublicKey Digest Signature → Prop}
  {C : PublicKey → Core.State PublicKey Digest Signature →
    Event PublicKey Digest Signature → Prop}
  {cores : States PublicKey Digest Signature}
  {helpers : PublicKey → Helper PublicKey Digest Signature} {name : PublicKey}
  {c : Certificate PublicKey Digest Signature}

theorem run_of_serves (hrun : w.Serves known C cores helpers) : w.Run known C cores := by
  induction hrun with
  | initial => exact .initial
  | core run name honest e round enabled received cond ih =>
      exact ih.step name honest e round enabled received cond
  | request run name honest digests origin ih => exact ih

/-- Certificates stay valid. -/
theorem Setting.Valid.after (hc : w.Valid known cores c) (name : PublicKey)
    (e : Event PublicKey Digest Signature) (round : ℕ) :
    w.Valid known (cores.after w name e round) c where
  known := hc.known
  verified := hc.verified
  genuine x hx hsig := signed_after e round _ _ (hc.genuine x hx hsig)

/-- What is stored as a certificate is valid, and stored under its digest. -/
theorem valid_of_stored (hw : w.Sound known) (hrun : w.Run known C cores) (hname : name ∈ w.honest)
    {digest : Digest} (hc : (cores name).store (.digest digest) = some (.certificate c)) :
    w.Valid known cores c ∧ c.digest = digest := by
  obtain ⟨events, current, hn⟩ := nodeInv_of_run hw hrun name hname
  obtain ⟨hdigest, haccepted⟩ := hn.evidence.stored _ _ hc
  exact ⟨valid_of_accepted haccepted, hdigest⟩

/-- In every run honest primaries serve valid certificates only, and only to authorities, whatever
    they are asked for. A `Helper` survives a request of an authority just if it names no header
    that the primary has stored; then it serves all the certificates that the request names and
    that are stored. -/
theorem served_valid (w : Setting PublicKey)
    (known : Header PublicKey Digest Signature → Prop) (hw : w.Sound known)
    (C : PublicKey → Core.State PublicKey Digest Signature →
      Event PublicKey Digest Signature → Prop)
    (cores : States PublicKey Digest Signature)
    (helpers : PublicKey → Helper PublicKey Digest Signature)
    (hrun : w.Serves known C cores helpers) (name : PublicKey) (hname : name ∈ w.honest) :
    (∀ x ∈ (helpers name).sent, x.1 ∈ w.committee.keys ∧ w.Valid known cores x.2) ∧
    ∀ digests, ∀ origin ∈ w.committee.keys, (helpers name).alive = true →
      let served := (helpers name).step w.committee (cores name).store digests origin
      (served.alive = true ↔
        ∀ digest ∈ digests, ∀ h, (cores name).store (.digest digest) ≠ some (.header h)) ∧
      (served.alive = true → ∀ digest ∈ digests, ∀ c,
        (cores name).store (.digest digest) = some (.certificate c) →
          c.digest = digest ∧ (origin, c) ∈ served.sent) := by
  refine ⟨?_, fun digests origin horigin halive => ?_⟩
  · induction hrun with
    | initial => exact fun x hx => absurd hx List.not_mem_nil
    | core run stepped honest e round enabled received cond ih =>
        exact fun x hx => (ih x hx).imp_right fun hc => hc.after stepped e round
    | @request cores helpers run stepped honest digests origin ih =>
        intro x hx
        by_cases hne : name = stepped
        · subst hne
          rw [Function.update_self] at hx
          unfold Helper.step at hx
          split at hx
          · rename_i hok
            rcases mem_sent_reply hx with hold | ⟨ho, digest, -, hc⟩
            · exact ih x hold
            · exact ⟨ho ▸ hok.2, (valid_of_stored hw (run_of_serves run) hname hc).1⟩
          · exact ih x hx
        · rw [Function.update_of_ne hne] at hx
          exact ih x hx
  · have hcores := run_of_serves hrun
    obtain ⟨events, current, hn⟩ := nodeInv_of_run hw hcores name hname
    have hstep : (helpers name).step w.committee (cores name).store digests origin =
        (helpers name).reply (cores name).store origin digests := if_pos ⟨halive, horigin⟩
    rw [hstep]
    have hiff : Answerable (cores name).store digests ↔
        ∀ digest ∈ digests, ∀ h, (cores name).store (.digest digest) ≠ some (.header h) := by
      refine forall₂_congr fun digest _ => ⟨fun h h' hh => ?_, fun hnot => ?_⟩
      · rw [hh] at h
        rcases h with h | ⟨c, h⟩
        · cases h
        · cases h
      · cases hv : (cores name).store (.digest digest) with
        | none => exact Or.inl rfl
        | some v =>
            cases v with
            | header h => exact absurd hv (hnot h)
            | certificate c => exact Or.inr ⟨c, rfl⟩
            | accountCounts counts => exact (hn.evidence.stored _ _ hv).elim
    refine ⟨alive_reply.trans ((and_iff_right halive).trans hiff), fun hserved digest hd c hc => ?_⟩
    refine ⟨(valid_of_stored hw hcores hname hc).2, ?_⟩
    rw [reply_of_answerable (alive_reply.mp hserved).2]
    exact List.mem_append_right _ (List.mem_map_of_mem
      (List.mem_filterMap.mpr ⟨digest, hd, certificateAt_eq_some.mpr hc⟩))

/-- Certificates can be synchronised, in every run: each parent of a certified header, but for the
    genesis certificates, is served by honest primaries with f+1 stake whose `Helper`s are alive,
    to any authority that asks for it. -/
theorem certified_served (w : Setting PublicKey)
    (known : Header PublicKey Digest Signature → Prop) (hw : w.Sound known)
    (C : PublicKey → Core.State PublicKey Digest Signature →
      Event PublicKey Digest Signature → Prop)
    (cores : States PublicKey Digest Signature)
    (helpers : PublicKey → Helper PublicKey Digest Signature)
    (hrun : w.Serves known C cores helpers) (c : Certificate PublicKey Digest Signature)
    (hc : w.Valid known cores c) (hgen : ¬ w.PassesForGenesis c) :
    ∃ s ⊆ w.honest, w.committee.validityThreshold ≤ w.committee.stakeOf s ∧
      ∀ name ∈ s, (helpers name).alive = true → ∀ digest ∈ c.header.parents.toList,
        digest ∉ genesisDigests w.committee Signature → ∀ origin ∈ w.committee.keys,
          ∃ q, w.Valid known cores q ∧ q.digest = digest ∧
            (helpers name).step w.committee (cores name).store [digest] origin =
              { helpers name with sent := (helpers name).sent ++ [(origin, q)] } := by
  have hcores := run_of_serves hrun
  obtain ⟨hid, s, hquorum, hmem, hvoted⟩ := voters hw hcores hc hgen
  refine ⟨s ∩ w.honest, Finset.inter_subset_right, hw.validity_le_honest s hquorum hmem,
    fun name hname halive digest hd hnot origin horigin => ?_⟩
  obtain ⟨hin, hhonest⟩ := Finset.mem_inter.mp hname
  obtain ⟨h, -, hexamined, hsame⟩ := hvoted name hin hhonest
  obtain ⟨q, hq⟩ := (hexamined.supported.held digest (hsame.parents ▸ hd)).resolve_left hnot
  obtain ⟨hvalid, hdigest⟩ := valid_of_stored hw hcores hhonest hq
  refine ⟨q, hvalid, hdigest, ?_⟩
  have hanswerable : Answerable (cores name).store [digest] := by
    intro d hd
    rw [List.mem_singleton.mp hd]
    exact Or.inr ⟨q, hq⟩
  have hone : [digest].filterMap (certificateAt (cores name).store) = [q] := by
    simp [certificateAt, hq]
  unfold Helper.step
  rw [if_pos ⟨halive, horigin⟩, reply_of_answerable hanswerable, hone]
  rfl

/-! ## A request for a certificate, and one for a header

Primary 1 has stored the header of primary 0 and its certificate. Authority 3 asks for both. -/

section Sample

open Toy NetworkSample

namespace ServiceSample

theorem serves_of_run {cores : States ℕ ℕ (ℕ × ℕ)}
    (hrun : setting.Run (· ∈ headers) setting.Fresh cores) :
    setting.Serves (· ∈ headers) setting.Fresh cores fun _ => Helper.initial := by
  induction hrun with
  | initial => exact .initial
  | step run name honest e round enabled received cond ih =>
      exact ih.core name honest e round enabled received cond

/-- The `Helper`s after a request for the certificate. -/
def asked : ℕ → Helper ℕ ℕ (ℕ × ℕ) :=
  Function.update (fun _ => .initial) 1
    (Helper.initial.step setting.committee (states 6 1).store [certificate.digest] 3)

theorem serves_asked : setting.Serves (· ∈ headers) setting.Fresh (states 6) asked :=
  (serves_of_run run_states).request 1 (by decide) [certificate.digest] 3

/-- The `Helper` does not survive a request for the header. -/
example : ((asked 1).step setting.committee (states 6 1).store [header.id] 3).alive = false := by
  decide +kernel

theorem alive_asked (name : ℕ) : (asked name).alive = true := by
  unfold asked
  by_cases hname : name = 1
  · subst hname
    rw [Function.update_self]
    decide +kernel
  · rw [Function.update_of_ne hname]
    rfl

end ServiceSample

open ServiceSample

theorem served_valid_sample :
    (∀ x ∈ (asked 1).sent, x.1 ∈ setting.committee.keys ∧
      setting.Valid (· ∈ headers) (states 6) x.2) ∧
    ∀ digests, ∀ origin ∈ setting.committee.keys,
      let served := (asked 1).step setting.committee (states 6 1).store digests origin
      (served.alive = true ↔
        ∀ digest ∈ digests, ∀ h, (states 6 1).store (.digest digest) ≠ some (.header h)) ∧
      (served.alive = true → ∀ digest ∈ digests, ∀ c,
        (states 6 1).store (.digest digest) = some (.certificate c) →
          c.digest = digest ∧ (origin, c) ∈ served.sent) := by
  obtain ⟨hsent, hserved⟩ :=
    served_valid setting (· ∈ headers) sound setting.Fresh (states 6) asked serves_asked 1
      (by decide)
  exact ⟨hsent, fun digests origin horigin => hserved digests origin horigin (alive_asked 1)⟩

theorem certified_served_sample :
    ∃ s ⊆ setting.honest, setting.committee.validityThreshold ≤ setting.committee.stakeOf s ∧
      ∀ name ∈ s, ∀ digest ∈ variant.header.parents.toList,
        digest ∉ genesisDigests setting.committee (ℕ × ℕ) →
          ∀ origin ∈ setting.committee.keys,
            ∃ q, setting.Valid (· ∈ headers) (states 6) q ∧ q.digest = digest ∧
              (asked name).step setting.committee (states 6 name).store [digest] origin =
                { asked name with sent := (asked name).sent ++ [(origin, q)] } := by
  obtain ⟨s, hsub, hstake, hserve⟩ :=
    certified_served setting (· ∈ headers) sound setting.Fresh (states 6) asked serves_asked
      variant (valid_of_votes (by simp)).1 (valid_of_votes (by simp)).2
  exact ⟨s, hsub, hstake, fun name hname => hserve name hname (alive_asked name)⟩

end Sample

end DagBft.Primaries
