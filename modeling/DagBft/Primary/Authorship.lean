/-
  Whose headers are certified.

  The invariant of `Primary/Evidence` once more, with more said of the headers in play: one
  whose id is its digest has been signed by its author (`Setting.Vouched`). What an honest
  primary votes for has passed `Header::verify`, so the author of a certified header has signed
  it (`signed_of_valid`).

  `certified_proposed`: what is certified in the name of an honest authority is the header that
  its primary has broadcast for that round.
-/
import DagBft.Primary.Network

namespace DagBft.Core

variable {PublicKey Digest Signature : Type} [LinearOrder PublicKey] [LinearOrder Digest]
  [AsBytes PublicKey] [AsBytes Digest] [Sha512 Digest]
  [Inhabited PublicKey] [Inhabited Digest] [Inhabited Signature]
  [Ed25519 PublicKey Digest Signature]

variable {p : Params PublicKey} {known known' : Header PublicKey Digest Signature → Prop}
  {signed : PublicKey → Digest → Prop}
  {outputs : List (Output PublicKey Digest Signature)} {store : Store PublicKey Digest Signature}
  {own : Header PublicKey Digest Signature → Prop}
  {current h : Header PublicKey Digest Signature} {c : Certificate PublicKey Digest Signature}
  {s : State PublicKey Digest Signature}

/-! ## More headers in play -/

section Imp

variable (himp : ∀ h, known h → known' h)

include himp

theorem Accepted.imp (ha : Accepted p known signed outputs c) :
    Accepted p known' signed outputs c :=
  ⟨himp _ ha.known, ha.verified, ha.genuine⟩

theorem Supported.imp (hs : Supported p known signed outputs store h) :
    Supported p known' signed outputs store h where
  parents := by
    obtain ⟨parents, hmap, haccepted, hrest⟩ := hs.parents
    exact ⟨parents, hmap, fun c hc => (haccepted c hc).imp_right fun ha => ha.imp himp, hrest⟩
  held := hs.held

theorem Examined.imp (he : Examined p known signed outputs store h) :
    Examined p known' signed outputs store h :=
  { he with
    supported := he.supported.imp himp
    known := himp _ he.known }

theorem Justified.imp {o : Output PublicKey Digest Signature}
    (hj : Justified p known signed own outputs store o) :
    Justified p known' signed own outputs store o := by
  cases o with
  | syncBatches missing h => exact ⟨himp _ hj.1, hj.2⟩
  | syncParents missing h => exact ⟨himp _ hj.1, hj.2⟩
  | syncCertificate c => exact Accepted.imp himp hj
  | newCertificate c => exact Accepted.imp himp hj
  | createdVote v =>
      obtain ⟨h, hv, he⟩ := hj
      exact ⟨h, hv, he.imp himp⟩
  | broadcastHeader h => exact hj
  | broadcastCertificate c => trivial
  | sendVote v => trivial
  | newParents parents round => trivial

theorem EvidenceInv.imp (hi : EvidenceInv p known signed own current s) :
    EvidenceInv p known' signed own current s where
  header := hi.header
  votes := hi.votes
  outputs o ho := (hi.outputs o ho).imp himp
  stored d v hv := by
    have hstored := hi.stored d v hv
    cases v with
    | header h => exact ⟨himp _ hstored.1, hstored.2⟩
    | certificate c => exact ⟨hstored.1, hstored.2.imp himp⟩
    | accountCounts counts => exact hstored
  known := himp _ hi.known

end Imp

end DagBft.Core

namespace DagBft.Primaries

open DagBft.Core

variable {PublicKey Digest Signature : Type} [LinearOrder PublicKey] [LinearOrder Digest]
  [AsBytes PublicKey] [AsBytes Digest] [Sha512 Digest]
  [Inhabited PublicKey] [Inhabited Digest] [Inhabited Signature]
  [Ed25519 PublicKey Digest Signature]

/-- A header in play, which its author has signed if its id is its digest. -/
def Setting.Vouched (w : Setting PublicKey) (known : Header PublicKey Digest Signature → Prop)
    (cores : States PublicKey Digest Signature) (h : Header PublicKey Digest Signature) : Prop :=
  known h ∧ (h.digest = h.id → w.Signed cores h.author h.id)

variable {w : Setting PublicKey} {known : Header PublicKey Digest Signature → Prop}
  {C : PublicKey → Core.State PublicKey Digest Signature →
    Event PublicKey Digest Signature → Prop}
  {cores cores' : States PublicKey Digest Signature} {name : PublicKey}
  {c : Certificate PublicKey Digest Signature} {h : Header PublicKey Digest Signature}

omit [Inhabited PublicKey] [Inhabited Digest] [Inhabited Signature]
  [Ed25519 PublicKey Digest Signature] in
theorem Setting.Vouched.mono
    (hs : ∀ name (d : Digest), w.Signed cores name d → w.Signed cores' name d)
    (hv : w.Vouched known cores h) : w.Vouched known cores' h :=
  ⟨hv.1, fun hid => hs _ _ (hv.2 hid)⟩

/-- `Header::default` does not have its digest as id. -/
theorem vouched_default (hw : w.Sound known) : w.Vouched known cores default :=
  ⟨hw.start, fun hid => absurd hid (hw.zero _ hw.start)⟩

/-- The header of a certificate that verifies: it has been signed, or has no digest as id. -/
theorem vouched_of_verify (hw : w.Sound known) (hk : known c.header)
    (hv : c.verify w.committee = .ok ())
    (hu : w.Unforged cores c.header.signature c.header.id c.header.author) :
    w.Vouched known cores c.header := by
  refine ⟨hk, fun hid => ?_⟩
  cases hgen : (Certificate.genesis w.committee).any (·.same c) with
  | true =>
      have hdefault : c.header.id = default := id_of_passesForGenesis hgen
      exact absurd (hid.trans hdefault) (hw.zero _ hk)
  | false =>
      have hheader := ((Certificate.verify_eq_ok hgen).mp hv).1
      exact hu (Header.verify_eq_ok.mp hheader).2.2.2

/-- What a message is worth, once our primary has taken it. -/
theorem Setting.Received.authentic_vouched (hw : w.Sound known)
    {e : Event PublicKey Digest Signature} (round : ℕ)
    (hrec : w.Received known cores name e) :
    Authentic (w.core name) (w.Vouched known (cores.after w name e round)) (w.Signed cores) e := by
  have hafter : ∀ {h : Header PublicKey Digest Signature}, w.Vouched known cores h →
      w.Vouched known (cores.after w name e round) h :=
    Setting.Vouched.mono fun other d => signed_after e round other d
  cases e with
  | ownHeader h =>
      obtain ⟨hk, q, ps, now, rfl, hq, -⟩ := hrec
      refine ⟨⟨hk, fun _ _ => ?_⟩, rfl⟩
      -- our header is broadcast in this very step
      refine Or.inl ⟨Proposer.newHeader Signature q now ps, ?_, rfl⟩
      have hself : (Proposer.newHeader Signature q now ps).author = name := hq
      rw [hself, States.after, Function.update_self]
      exact broadcast_step _ _ _ _
  | primaryHeader h =>
      exact fun hv => hafter ⟨hrec.1 hv, fun _ => hrec.2 (Header.verify_eq_ok.mp hv).2.2.2⟩
  | primaryVote v => exact fun hv => Or.inl (hrec.2 hv)
  | primaryCertificate c =>
      exact fun hv => ⟨hafter (vouched_of_verify hw (hrec.1 hv) hv hrec.2.1), hv,
        fun x hx hsig => Or.inl (hrec.2.2 x hx hsig)⟩
  | loopbackHeader h => trivial
  | loopbackCertificate c => trivial
  | othersBatch digest worker counts => trivial

/-- What an honest primary holds stands on headers that their authors have signed. -/
theorem evidence_of_run (hw : w.Sound known) (hrun : w.Run known C cores) :
    ∀ name ∈ w.honest, ∃ own current, EvidenceInv (w.core name) (w.Vouched known cores)
      (w.Signed cores) own current (cores name) := by
  induction hrun with
  | initial =>
      exact fun name _ => ⟨fun _ => False, default, EvidenceInv.initial (vouched_default hw)⟩
  | @step cores run name honest e round enabled received cond ih =>
      intro other hother
      obtain ⟨own, current, hi⟩ := ih other hother
      have hsigned : ∀ other (d : Digest),
          w.Signed cores other d → w.Signed (cores.after w name e round) other d :=
        fun other d => signed_after e round other d
      have hvouched : ∀ h, w.Vouched known cores h →
          w.Vouched known (cores.after w name e round) h := fun h => Setting.Vouched.mono hsigned
      have hi' := hi.imp hvouched
      by_cases hne : other = name
      · subst hne
        obtain ⟨events, current', hn⟩ := nodeInv_of_run hw
          (run.step other honest e round enabled received cond) other honest
        have hself : cores.after w other e round other =
            Core.step (w.core other) (cores other) e round := Function.update_self ..
        have key := Evident.step (w.core other) (w.Vouched known (cores.after w other e round))
          (w.Signed cores) own current (fun h h' hh hh' => hw.apart h h' hh.1 hh'.1)
          (fun d d' => (hw.sign other honest d d').mp) (Or.inr hi') enabled
          (received.authentic_vouched hw round)
        rcases key with ⟨c, hc, hnot⟩ | hev
        · -- what this primary assembles verifies
          rw [← hself] at hc
          exact absurd (verify_of_broadcast (hw.environment honest) (fun _ _ hk => hk.1) hn.run hc)
            hnot
        · rw [hself]
          exact ⟨_, _, hev.mono hsigned⟩
      · have hsame : cores.after w name e round other = cores other :=
          Function.update_of_ne hne _ _
        rw [hsame]
        exact ⟨own, current, hi'.mono hsigned⟩

/-- An honest authority in whose name a header is certified has signed it. -/
theorem signed_of_valid (hw : w.Sound known) (hrun : w.Run known C cores)
    (hc : w.Valid known cores c) (hgen : ¬ w.PassesForGenesis c) :
    w.Signed cores c.origin c.header.id := by
  obtain ⟨-, s, hquorum, hmem, hvoted⟩ := voters hw hrun hc hgen
  obtain ⟨name, hname, hin, -⟩ := hw.exists_honest_of_quorums s s hquorum hquorum hmem
  obtain ⟨h, hvote, -, hsame⟩ := hvoted name hin hname
  obtain ⟨own, current, hi⟩ := evidence_of_run hw hrun name hname
  obtain ⟨h', hnew, hexamined⟩ := hi.outputs _ hvote
  have hid : h.id = h'.id := congrArg Vote.id hnew
  have hauthor : h.author = h'.author := congrArg Vote.origin hnew
  have hsigned := hexamined.known.2 hexamined.identified
  rw [← hid, ← hauthor, hsame.id, hsame.author] at hsigned
  exact hsigned

/-- What is certified in the name of an honest authority is a header of its proposer. -/
theorem proposed_of_valid (hw : w.Sound known) (hrun : w.Run known C cores)
    (hc : w.Valid known cores c) (hgen : ¬ w.PassesForGenesis c) (horigin : c.origin ∈ w.honest) :
    ∃ events current h, NodeInv w known C cores c.origin events current ∧
      .ownHeader h ∈ events ∧ SameContent h c.header := by
  obtain ⟨events, current, hn⟩ := nodeInv_of_run hw hrun c.origin horigin
  obtain ⟨hid, -⟩ := voters hw hrun hc hgen
  obtain ⟨h, hown, hsame⟩ := hn.proposed_of_signs hw hc.known hid
    (signed_of_valid hw hrun hc hgen horigin)
  exact ⟨events, current, h, hn, hown, hsame⟩

/-- Authorship, in every run: a certificate that verifies, in the name of an honest authority, is
    for a header that its primary has broadcast, and this is the only one that it has broadcast
    for that round. -/
theorem certified_proposed (w : Setting PublicKey)
    (known : Header PublicKey Digest Signature → Prop) (hw : w.Sound known)
    (C : PublicKey → Core.State PublicKey Digest Signature →
      Event PublicKey Digest Signature → Prop)
    (cores : States PublicKey Digest Signature) (hrun : w.Run known C cores)
    (c : Certificate PublicKey Digest Signature) (hc : w.Valid known cores c)
    (hgen : ¬ w.PassesForGenesis c) (horigin : c.origin ∈ w.honest) :
    ∃ h, .broadcastHeader h ∈ (cores c.origin).outputs ∧ SameContent h c.header ∧
      ∀ h', .broadcastHeader h' ∈ (cores c.origin).outputs → h'.round = c.round →
        SameContent h' c.header := by
  obtain ⟨events, current, h, hn, hown, hsame⟩ := proposed_of_valid hw hrun hc hgen horigin
  refine ⟨h, hn.sent h hown, hsame, fun h' hsent hround => ?_⟩
  have hown' : .ownHeader h' ∈ events := hn.evidence.outputs _ hsent
  obtain ⟨hk', hid', -⟩ := hn.proposed h' hown'
  obtain ⟨hid, -⟩ := voters hw hrun hc hgen
  have honce : h'.id = h.id := hn.once h' h hown' hown (hround.trans hsame.round.symm)
  exact hw.ids h' c.header hk' hc.known hid' hid (honce.trans hsame.id)

/-! ## A certificate with the vote of a byzantine authority -/

section Sample

open Toy NetworkSample

theorem certified_proposed_sample :
    ∃ h, .broadcastHeader h ∈ (states 6 variant.origin).outputs ∧ SameContent h variant.header ∧
      ∀ h', .broadcastHeader h' ∈ (states 6 variant.origin).outputs → h'.round = variant.round →
        SameContent h' variant.header :=
  certified_proposed setting (· ∈ headers) sound setting.Fresh (states 6) run_states variant
    (valid_of_votes (by simp)).1 (valid_of_votes (by simp)).2 (by decide)

end Sample

end DagBft.Primaries
