/-
  Primaries and consensus together: what the honest primaries of a committee send to their
  consensus tasks, and what these commit.

  The certificates that verify form a DAG as Tusk needs it (`certifiedDag`), by the results of
  `Primary/Network`, once their votes are left out: two primaries may hold different
  certificates for one header. Each honest primary delivers this DAG in causal order
  (`redelivery_of_run`). As there, no primary returns to a round that it has garbage collected
  (`Setting.Fresh`).

  `honest_primaries_agree`: of the leaders that two honest primaries commit, those of one are
  the first of those of the other.
-/
import DagBft.Consensus.Completeness
import DagBft.Consensus.Content
import DagBft.Primary.Network
import DagBft.Primary.Node
import DagBft.Primary.Order

namespace DagBft.Primaries

open DagBft.Core DagBft.Consensus Toy

variable {PublicKey Digest Signature : Type} [LinearOrder PublicKey] [LinearOrder Digest]

omit [LinearOrder PublicKey] in
/-- What is delivered before a certificate. -/
theorem exists_of_delivered {s : Core.State PublicKey Digest Signature}
    {c : Certificate PublicKey Digest Signature}
    {pre post : List (Certificate PublicKey Digest Signature)}
    (h : delivered s = pre ++ c :: post) : ∃ before after,
      s.outputs = before ++ .newCertificate c :: after ∧ before.filterMap deliveredBy = pre := by
  obtain ⟨l, l', hout, hpre, hrest⟩ := List.filterMap_eq_append_iff.mp h
  obtain ⟨skipped, o, after, hl', hskip, ho, -⟩ := List.filterMap_eq_cons_iff.mp hrest
  refine ⟨l ++ skipped, after, ?_, ?_⟩
  · rw [hout, hl', deliveredBy_eq_some.mp ho, List.append_assoc]
  · rw [List.filterMap_append, hpre, List.filterMap_eq_nil_iff.mpr hskip, List.append_nil]

variable [AsBytes PublicKey] [AsBytes Digest] [Sha512 Digest]
  [Inhabited PublicKey] [Inhabited Digest] [Inhabited Signature]
  [Ed25519 PublicKey Digest Signature]

omit [Ed25519 PublicKey Digest Signature] in
/-- What consensus outputs is in the DAG. -/
theorem vertex_of_mem_output {p : Consensus.Params PublicKey}
    {D : CausalDag Digest Signature p.committee}
    {received : List (Certificate PublicKey Digest Signature)}
    {log : Log PublicKey Digest Signature} {c : Certificate PublicKey Digest Signature}
    (hd : Redelivery D received) (hrun : Consensus.run p received = some log)
    (hmem : c ∈ log.output) : D.Vertex c := by
  rw [output_eq hrun] at hmem
  obtain ⟨pt, hpt, hc⟩ := List.mem_flatMap.mp hmem
  obtain ⟨pre, hok⟩ := ok_of_mem_points hd hpt
  obtain ⟨xs, hxs, hsequence⟩ := exists_sequence hok
  have hvisits := ((orderDag_visits hok hxs).1 c).mp (hsequence ▸ hc)
  exact CausalDag.Reach.vertex (hok.delivery.vertex_of_known hok.known) (Visits.reach hvisits.1)

variable {w : Setting PublicKey} {known : Header PublicKey Digest Signature → Prop}
  {cores : States PublicKey Digest Signature} {name : PublicKey}
  {c c' : Certificate PublicKey Digest Signature}

/-- The parameters of the consensus task. -/
def Setting.consensus (w : Setting PublicKey) : Consensus.Params PublicKey :=
  ⟨w.committee, w.gcDepth⟩

/-- The certificates that verify, without their votes. -/
def Setting.Certified (w : Setting PublicKey)
    (known : Header PublicKey Digest Signature → Prop)
    (cores : States PublicKey Digest Signature) (c : Certificate PublicKey Digest Signature) :
    Prop :=
  ∃ c', w.Valid known cores c' ∧ ¬ w.PassesForGenesis c' ∧ c'.unsigned = c

/-! ## The DAG -/

omit [LinearOrder PublicKey] [AsBytes PublicKey] [AsBytes Digest] [Sha512 Digest]
  [Inhabited PublicKey] [Inhabited Digest] [Ed25519 PublicKey Digest Signature] in
theorem unsigned_eq_of_sameContent (hs : SameContent c.header c'.header) :
    c.unsigned = c'.unsigned := by
  have key := congrArg (fun h : Header PublicKey Digest Signature =>
    (⟨{ h with signature := default }, []⟩ : Certificate PublicKey Digest Signature)) hs
  exact key

/-- A certificate that verifies has a vertex of its digest, round and author. -/
theorem exists_vertex {q : Certificate PublicKey Digest Signature}
    (hq : w.Valid known cores q) : ∃ v, (w.Certified known cores v ∨
      v ∈ Certificate.genesis w.committee) ∧ v.digest = q.digest ∧ v.round = q.round ∧
        v.origin = q.origin := by
  by_cases hgen : w.PassesForGenesis q
  · obtain ⟨g, hg, hsame⟩ := List.any_eq_true.mp hgen
    obtain ⟨hid, hround, horigin⟩ := Certificate.same_iff.mp hsame
    refine ⟨g, Or.inr hg, ?_, hround, horigin⟩
    unfold Certificate.digest
    rw [hid, hround, horigin]
  · exact ⟨q.unsigned, Or.inl ⟨q, hq, hgen, rfl⟩, rfl, rfl, rfl⟩

section Certified

variable (hw : w.Sound known) (hrun : w.Run known w.Fresh cores)

include hw hrun

theorem certified_unique (hc : w.Certified known cores c) (hc' : w.Certified known cores c')
    (hround : c.round = c'.round) (horigin : c.origin = c'.origin) : c = c' := by
  obtain ⟨q, hq, hgen, rfl⟩ := hc
  obtain ⟨q', hq', hgen', rfl⟩ := hc'
  exact unsigned_eq_of_sameContent
    (sameContent_of_valid hw hrun hq hq' hgen hgen' hround horigin)

omit hrun in
/-- The header of a vertex is in play, but for its signature. -/
theorem known_of_vertex (hc : w.Certified known cores c ∨ c ∈ Certificate.genesis w.committee) :
    ∃ h, known h ∧ h.id = c.header.id ∧ h.round = c.round ∧ h.author = c.origin := by
  rcases hc with ⟨q, hq, -, rfl⟩ | hg
  · exact ⟨q.header, hq.known, rfl, rfl, rfl⟩
  · exact ⟨c.header, hw.genesis c hg, rfl, rfl, rfl⟩

theorem digest_inj_of_vertex
    (hc : w.Certified known cores c ∨ c ∈ Certificate.genesis w.committee)
    (hc' : w.Certified known cores c' ∨ c' ∈ Certificate.genesis w.committee)
    (hd : c.digest = c'.digest) : c = c' := by
  obtain ⟨h, hk, hid, hround, hauthor⟩ := known_of_vertex hw hc
  obtain ⟨h', hk', hid', hround', hauthor'⟩ := known_of_vertex hw hc'
  obtain ⟨-, hr, ha⟩ := hw.votes h h' hk hk' (by
    unfold voteDigest
    rw [hid, hround, hauthor, hid', hround', hauthor']
    exact hd)
  have hround : c.round = c'.round := hround.symm.trans (hr.trans hround')
  have horigin : c.origin = c'.origin := hauthor.symm.trans (ha.trans hauthor')
  have hpos : ∀ {c : Certificate PublicKey Digest Signature}, w.Certified known cores c →
      c.round ≠ 0 := by
    rintro c ⟨q, hq, hgen, rfl⟩
    rw [Certificate.round_unsigned]
    exact round_ne_zero hw hrun hq hgen
  rcases hc with hc | hg <;> rcases hc' with hc' | hg'
  · exact certified_unique hw hrun hc hc' hround horigin
  · exact absurd (hround.trans (Certificate.round_genesis hg')) (hpos hc)
  · exact absurd (hround.symm.trans (Certificate.round_genesis hg)) (hpos hc')
  · obtain ⟨n, -, rfl⟩ := Certificate.mem_genesis.mp hg
    obtain ⟨n', -, rfl⟩ := Certificate.mem_genesis.mp hg'
    change n = n' at horigin
    rw [horigin]

/-- The certificates that verify form a DAG in which authors do not equivocate and parents
    come from a quorum of the round before. -/
def certifiedDag : CausalDag Digest Signature w.consensus.committee where
  certs := { c | w.Certified known cores c }
  round_pos := by
    rintro c ⟨q, hq, hgen, rfl⟩
    rw [Certificate.round_unsigned]
    exact Nat.pos_of_ne_zero (round_ne_zero hw hrun hq hgen)
  unique c hc c' hc' := certified_unique hw hrun hc hc'
  digest_inj c c' hc hc' := digest_inj_of_vertex hw hrun hc hc'
  parents := by
    rintro c ⟨q, hq, hgen, rfl⟩ d hd
    obtain ⟨parents, hmap, hvalid, -, -⟩ := parents_of_valid hw hrun hq hgen
    have hmem : d ∈ parents.map Certificate.digest := hmap ▸ hd
    obtain ⟨x, hx, rfl⟩ := List.mem_map.mp hmem
    obtain ⟨v, hv, hdigest, hround, -⟩ := exists_vertex (hvalid x hx).1
    exact ⟨v, hv, hdigest, hround ▸ (hvalid x hx).2⟩
  quorum := by
    rintro c ⟨q, hq, hgen, rfl⟩
    obtain ⟨parents, hmap, hvalid, -, hquorum⟩ := parents_of_valid hw hrun hq hgen
    refine ⟨(parents.map Certificate.origin).toFinset, ?_, fun a ha => ?_⟩
    · rw [Committee.quorumThreshold_eq (by have := hw.total; omega)] at hquorum
      exact hquorum
    · obtain ⟨x, hx, rfl⟩ := List.mem_map.mp (List.mem_toFinset.mp ha)
      obtain ⟨v, hv, hdigest, -, horigin⟩ := exists_vertex (hvalid x hx).1
      refine ⟨v, hv, ?_, horigin⟩
      have hmem : x.digest ∈ q.header.parents.toList := hmap ▸ List.mem_map_of_mem hx
      rw [hdigest]
      exact hmem

/-! ## The order of delivery -/

/-- An honest primary delivers the DAG in causal order, up to where it delivers something that
    passes for a genesis certificate. -/
theorem redelivery_of_run (hname : name ∈ w.honest) (k : ℕ)
    (hgenesis : ∀ c ∈ (delivered (cores name)).take k, ¬ w.PassesForGenesis c) :
    Redelivery (certifiedDag hw hrun)
      (((delivered (cores name)).take k).map Certificate.unsigned) := by
  obtain ⟨events, current, hn⟩ := nodeInv_of_run hw hrun name hname
  have hinPlay : ∀ s e, w.Kept known w.Fresh name s e → EventInPlay (w.core name) known e := by
    rintro s e ⟨hpromised, -⟩
    cases e with
    | ownHeader h => exact hpromised.1
    | primaryHeader h => exact fun _ => hpromised.1
    | primaryCertificate c => exact fun _ => hpromised.1
    | _ => trivial
  have horder : OrderInv (w.core name) known [] (cores name) :=
    orderInv_of_run (w.core name) known hw.start (run_of_imp hinPlay hn.run)
  have hvalid : ∀ c ∈ (delivered (cores name)).take k, w.Certified known cores c.unsigned :=
    fun c hc => ⟨c, valid_of_accepted (hn.evidence.outputs _
      (mem_delivered.mp (List.mem_of_mem_take hc))), hgenesis c hc, rfl⟩
  refine ⟨fun c hc => ?_, fun pre c post he q hq hparent => ?_⟩
  · obtain ⟨c', hc', rfl⟩ := List.mem_map.mp hc
    exact hvalid c' hc'
  · obtain ⟨l, l', hl, hpre, hrest⟩ := List.map_eq_append_iff.mp he
    obtain ⟨c', l'', hl', rfl, -⟩ := List.map_eq_cons_iff.mp hrest
    have hall : delivered (cores name) = l ++ c' :: (l'' ++ (delivered (cores name)).drop k) := by
      rw [← List.cons_append, ← hl', ← List.append_assoc, ← hl, List.take_append_drop]
    obtain ⟨before, after, hout, hbefore⟩ := exists_of_delivered hall
    rcases horder.order before c' after hout q.digest hparent with
      ⟨h, hk, hid⟩ | hgen | ⟨x, hdigest, hx⟩
    · -- a certified parent is no header
      obtain ⟨q', hq', -, rfl⟩ := hq
      exact absurd hid (hw.apart h q'.header hk hq'.known)
    · obtain ⟨g, hg, hdigest⟩ := List.mem_map.mp hgen
      obtain rfl := (certifiedDag hw hrun).digest_inj q g (Or.inl hq) (Or.inr hg) hdigest.symm
      have hpos := (certifiedDag hw hrun).round_pos q hq
      have hzero := Certificate.round_genesis hg
      omega
    · have hmem : x ∈ l := hbefore ▸ List.mem_filterMap.mpr ⟨_, hx, rfl⟩
      obtain rfl := (certifiedDag hw hrun).digest_inj x.unsigned q
        (Or.inl (hvalid x (hl ▸ List.mem_append_left _ hmem))) (Or.inl hq) hdigest
      rw [← hpre]
      exact List.mem_map_of_mem hmem

/-- What consensus commits of the beginning of what an honest primary delivers. -/
theorem committed_of_run (hname : name ∈ w.honest) (k : ℕ)
    (hgenesis : ∀ c ∈ (delivered (cores name)).take k, ¬ w.PassesForGenesis c) :
    ∃ log, Consensus.run w.consensus ((delivered (cores name)).take k) = some log ∧
      Committed (certifiedDag hw hrun)
        (((delivered (cores name)).take k).map Certificate.unsigned) log.unsigned := by
  have htotal : 2 * w.consensus.committee.total < 2 ^ 32 := by
    have key : w.committee.total < 2 ^ 31 := hw.total
    change 2 * w.committee.total < 2 ^ 32
    omega
  obtain ⟨log, hlog, hcommitted⟩ := run_spec htotal (redelivery_of_run hw hrun hname k hgenesis)
  rw [run_unsigned] at hlog
  obtain ⟨log', hlog', rfl⟩ := Option.map_eq_some_iff.mp hlog
  exact ⟨log', hlog', hcommitted⟩

/-- What consensus outputs of the beginning of what an honest primary delivers: certificates
    that verify, but for their votes. -/
theorem certified_of_mem_output (hname : name ∈ w.honest) (k : ℕ)
    (hgenesis : ∀ c ∈ (delivered (cores name)).take k, ¬ w.PassesForGenesis c)
    {log : Log PublicKey Digest Signature}
    (hlog : Consensus.run w.consensus ((delivered (cores name)).take k) = some log)
    (hmem : c ∈ log.output) (hround : c.round ≠ 0) : w.Certified known cores c.unsigned := by
  have hrun' : Consensus.run w.consensus
      (((delivered (cores name)).take k).map Certificate.unsigned) = some log.unsigned := by
    rw [run_unsigned, hlog]
    rfl
  have hmem' : c.unsigned ∈ log.unsigned.output := List.mem_map_of_mem hmem
  refine (vertex_of_mem_output (redelivery_of_run hw hrun hname k hgenesis) hrun'
    hmem').resolve_right fun hg => ?_
  have hzero : c.unsigned.round = 0 := Certificate.round_genesis hg
  exact hround hzero

end Certified

/-! ## Primaries with all their tasks -/

/-- The options of an honest primary. -/
def Setting.node (w : Setting PublicKey) (headerSize : ℕ) (name : PublicKey) :
    Params PublicKey :=
  ⟨name, w.committee, w.gcDepth, w.baselineMode, headerSize⟩

/-- What the network may give to a primary, under a condition as in `Setting.Run`. The headers
    that its own proposer makes are in play. -/
def Setting.Admits (w : Setting PublicKey) (known : Header PublicKey Digest Signature → Prop)
    (C : PublicKey → Core.State PublicKey Digest Signature →
      Event PublicKey Digest Signature → Prop)
    (cores : States PublicKey Digest Signature) (name : PublicKey) :
    Event PublicKey Digest Signature → Prop
  | .ownHeader h => known h ∧ C name (cores name) (.ownHeader h)
  | e => w.Received known cores name e ∧ C name (cores name) e

/-- The `Core` of every primary. -/
def coresOf (nodes : PublicKey → Node PublicKey Digest Signature) :
    States PublicKey Digest Signature :=
  fun name => (nodes name).core

variable [DecidableEq Signature]

/-- The states that the primaries go through: one task of an honest one takes the next step. -/
inductive Setting.Operates (w : Setting PublicKey)
    (known : Header PublicKey Digest Signature → Prop)
    (C : PublicKey → Core.State PublicKey Digest Signature →
      Event PublicKey Digest Signature → Prop)
    (headerSize : ℕ) : (PublicKey → Node PublicKey Digest Signature) → Prop
  | initial : Operates w known C headerSize fun name => Node.initial (w.node headerSize name)
  | step {nodes : PublicKey → Node PublicKey Digest Signature}
      (run : Operates w known C headerSize nodes) (name : PublicKey) (honest : name ∈ w.honest)
      (a : Action PublicKey Digest Signature) (n : Node PublicKey Digest Signature)
      (permitted : Permitted (w.node headerSize name)
        (fun _ => w.Admits known C (coresOf nodes) name) (nodes name) a)
      (next : (nodes name).step (w.node headerSize name) a = some n) :
      Operates w known C headerSize (Function.update nodes name n)

variable {C : PublicKey → Core.State PublicKey Digest Signature →
    Event PublicKey Digest Signature → Prop}
  {headerSize : ℕ} {nodes : PublicKey → Node PublicKey Digest Signature}

omit [AsBytes PublicKey] [AsBytes Digest] [Sha512 Digest] [Inhabited PublicKey] [Inhabited Digest]
  [Inhabited Signature] [Ed25519 PublicKey Digest Signature] [DecidableEq Signature] in
theorem coresOf_update (name : PublicKey) (n : Node PublicKey Digest Signature) :
    coresOf (Function.update nodes name n) = Function.update (coresOf nodes) name n.core := by
  funext other
  unfold coresOf
  by_cases h : other = name
  · subst h
    rw [Function.update_self, Function.update_self]
  · rw [Function.update_of_ne h, Function.update_of_ne h]

/-- The primaries with all their tasks are a run of their `Core`s. -/
theorem run_of_operates (hrun : w.Operates known C headerSize nodes) :
    w.Run known C (coresOf nodes) ∧
      ∀ name, ∃ events, Coupled (w.node headerSize name) events (nodes name) := by
  induction hrun with
  | initial => exact ⟨Setting.Run.initial, fun name => ⟨[], coupled_initial _⟩⟩
  | @step nodes run name honest a n permitted next ih =>
      obtain ⟨hcores, hcoupled⟩ := ih
      obtain ⟨events, hc⟩ := hcoupled name
      have hother : ∀ {events}, Coupled (w.node headerSize name) events n →
          ∀ other, ∃ events, Coupled (w.node headerSize other) events
            (Function.update nodes name n other) := by
        intro events hn other
        by_cases h : other = name
        · subst h
          rw [Function.update_self]
          exact ⟨events, hn⟩
        · rw [Function.update_of_ne h]
          exact hcoupled other
      rw [coresOf_update]
      cases he : (nodes name).coreEvent a with
      | none =>
          obtain ⟨hsame, hn⟩ := hc.stepOther permitted he next
          refine ⟨?_, hother hn⟩
          rw [hsame]
          exact (Function.update_eq_self name (coresOf nodes)).symm ▸ hcores
      | some e =>
          obtain ⟨henabled, hinternal, hcore, hn⟩ := hc.stepCore permitted he next
          refine ⟨?_, hother hn⟩
          have hadmits := permitted.1 e he
          have key : w.Received known (coresOf nodes) name e ∧ C name (coresOf nodes name) e := by
            cases e with
            | ownHeader h => exact ⟨⟨hadmits.1, hinternal⟩, hadmits.2⟩
            | _ => exact hadmits
          rw [hcore]
          exact hcores.step name honest e _ henabled key.1 key.2

/-- Safety from end to end: in every state that the primaries of a committee reach, in any
    order of the steps of their tasks and whatever the byzantine ones send, as long as nothing old
    comes back from a waiter of an honest one, the consensus tasks of two honest primaries have
    not panicked and have committed comparable sequences of leaders, unless one of them was given
    something that passes for a genesis certificate. -/
theorem honest_primaries_agree (w : Setting PublicKey)
    (known : Header PublicKey Digest Signature → Prop) (hw : w.Sound known) (headerSize : ℕ)
    (nodes : PublicKey → Node PublicKey Digest Signature)
    (hrun : w.Operates known w.Fresh headerSize nodes)
    (name name' : PublicKey) (hname : name ∈ w.honest) (hname' : name' ∈ w.honest)
    (hgenesis : ∀ c ∈ delivered (nodes name).core, ¬ w.PassesForGenesis c)
    (hgenesis' : ∀ c ∈ delivered (nodes name').core, ¬ w.PassesForGenesis c) :
    ∃ log log', (nodes name).log = some log ∧ (nodes name').log = some log' ∧
      (log.leaders.map Certificate.unsigned <+: log'.leaders.map Certificate.unsigned ∨
        log'.leaders.map Certificate.unsigned <+: log.leaders.map Certificate.unsigned) := by
  obtain ⟨hcores, hcoupled⟩ := run_of_operates hrun
  have hlog : ∀ name ∈ w.honest, (∀ c ∈ delivered (nodes name).core, ¬ w.PassesForGenesis c) →
      ∃ received log, (nodes name).log = some log ∧
        Committed (certifiedDag hw hcores) received log.unsigned := by
    intro name hname hgenesis
    obtain ⟨events, hc⟩ := hcoupled name
    obtain ⟨log, hlog, hcommitted⟩ := committed_of_run hw hcores hname (nodes name).certificatesRead
      fun c hmem => hgenesis c (List.mem_of_mem_take hmem)
    exact ⟨_, log, hc.committing.log.trans hlog, hcommitted⟩
  obtain ⟨received, log, hlog₁, hcommitted⟩ := hlog name hname hgenesis
  obtain ⟨received', log', hlog₂, hcommitted'⟩ := hlog name' hname' hgenesis'
  exact ⟨log, log', hlog₁, hlog₂, leaders_comparable hcommitted hcommitted'⟩

/-! ## Four primaries with all their tasks

The run of the four primaries above, and the consensus tasks of two of them. -/

section Sample

namespace CommitteeSample

open NetworkSample

def actions : List (ℕ × Action ℕ ℕ (ℕ × ℕ)) :=
  [(0, .propose 0 true .timer), (0, .ownHeader), (1, .message (.primaryHeader header)),
    (2, .message (.primaryHeader header)), (0, .message (.primaryVote (Vote.new header 1))),
    (0, .message (.primaryVote (Vote.new header 2))),
    (1, .message (.primaryCertificate certificate)), (0, .consensus), (1, .consensus)]

def advance (nodes : ℕ → Node ℕ ℕ (ℕ × ℕ)) (x : ℕ × Action ℕ ℕ (ℕ × ℕ)) :
    ℕ → Node ℕ ℕ (ℕ × ℕ) :=
  Function.update nodes x.1 (((nodes x.1).step (setting.node 1000 x.1) x.2).getD (nodes x.1))

/-- The primaries after the first `k` actions. -/
def primaries (k : ℕ) : ℕ → Node ℕ ℕ (ℕ × ℕ) :=
  (actions.take k).foldl advance fun name => Node.initial (setting.node 1000 name)

theorem operates_advance {nodes : ℕ → Node ℕ ℕ (ℕ × ℕ)}
    (run : setting.Operates (· ∈ headers) setting.Fresh 1000 nodes) (x : ℕ × Action ℕ ℕ (ℕ × ℕ))
    (honest : x.1 ∈ setting.honest)
    (hp : Permitted (setting.node 1000 x.1)
      (fun _ => setting.Admits (· ∈ headers) setting.Fresh (coresOf nodes) x.1) (nodes x.1) x.2)
    (hsome : ((nodes x.1).step (setting.node 1000 x.1) x.2).isSome = true) :
    setting.Operates (· ∈ headers) setting.Fresh 1000 (advance nodes x) := by
  obtain ⟨n, hn⟩ := Option.isSome_iff_exists.mp hsome
  have hstep := run.step x.1 honest x.2 n hp hn
  unfold advance
  rw [hn]
  exact hstep

/-- What a message needs. -/
theorem permitted_message {p : Params ℕ} {n : Node ℕ ℕ (ℕ × ℕ)}
    {C : Core.State ℕ ℕ (ℕ × ℕ) → Event ℕ ℕ (ℕ × ℕ) → Prop} {e : Event ℕ ℕ (ℕ × ℕ)}
    (hc : C n.core e) (he : ∀ h, e ≠ .loopbackHeader h) : Permitted p C n (.message e) := by
  refine ⟨fun e' he' => ?_, ?_⟩
  · simp only [Node.coreEvent] at he'
    split at he'
    · rw [← Option.some.inj he']
      exact hc
    · cases he'
  · cases e with
    | loopbackHeader h => exact absurd rfl (he h)
    | _ => trivial

theorem operates_primaries : setting.Operates (· ∈ headers) setting.Fresh 1000 (primaries 9) := by
  have h1 : setting.Operates (· ∈ headers) setting.Fresh 1000 (primaries 1) :=
    operates_advance .initial (0, .propose 0 true .timer) (by decide)
      ⟨fun _ he => absurd he.symm (Option.some_ne_none _), trivial⟩ (by decide +kernel)
  have h2 : setting.Operates (· ∈ headers) setting.Fresh 1000 (primaries 2) :=
    operates_advance h1 (0, .ownHeader) (by decide)
      ⟨fun e he => Option.some.inj he ▸ ⟨header_mem, trivial⟩, trivial⟩ (by decide +kernel)
  have h3 : setting.Operates (· ∈ headers) setting.Fresh 1000 (primaries 3) :=
    operates_advance h2 (1, .message (.primaryHeader header)) (by decide)
      (permitted_message ⟨⟨fun _ => header_mem, unforged_header (by decide +kernel)⟩,
        trivial⟩ (by simp)) (by decide +kernel)
  have h4 : setting.Operates (· ∈ headers) setting.Fresh 1000 (primaries 4) :=
    operates_advance h3 (2, .message (.primaryHeader header)) (by decide)
      (permitted_message ⟨⟨fun _ => header_mem, unforged_header (by decide +kernel)⟩,
        trivial⟩ (by simp)) (by decide +kernel)
  have h5 : setting.Operates (· ∈ headers) setting.Fresh 1000 (primaries 5) :=
    operates_advance h4 (0, .message (.primaryVote (Vote.new header 1))) (by decide)
      (permitted_message ⟨received_vote (by decide +kernel), trivial⟩ (by simp)) (by decide +kernel)
  have h6 : setting.Operates (· ∈ headers) setting.Fresh 1000 (primaries 6) :=
    operates_advance h5 (0, .message (.primaryVote (Vote.new header 2))) (by decide)
      (permitted_message ⟨received_vote (by decide +kernel), trivial⟩ (by simp)) (by decide +kernel)
  have h7 : setting.Operates (· ∈ headers) setting.Fresh 1000 (primaries 7) :=
    operates_advance h6 (1, .message (.primaryCertificate certificate)) (by decide)
      (permitted_message ⟨received_certificate (by decide +kernel) (by decide +kernel)
        (by decide +kernel) (by decide +kernel), trivial⟩ (by simp)) (by decide +kernel)
  have h8 : setting.Operates (· ∈ headers) setting.Fresh 1000 (primaries 8) :=
    operates_advance h7 (0, .consensus) (by decide)
      ⟨fun _ he => absurd he.symm (Option.some_ne_none _), trivial⟩ (by decide +kernel)
  exact operates_advance h8 (1, .consensus) (by decide)
    ⟨fun _ he => absurd he.symm (Option.some_ne_none _), trivial⟩ (by decide +kernel)

end CommitteeSample

open NetworkSample CommitteeSample

theorem honest_primaries_agree_sample :
    ∃ log log', (primaries 9 0).log = some log ∧ (primaries 9 1).log = some log' ∧
      (log.leaders.map Certificate.unsigned <+: log'.leaders.map Certificate.unsigned ∨
        log'.leaders.map Certificate.unsigned <+: log.leaders.map Certificate.unsigned) :=
  honest_primaries_agree setting (· ∈ headers) sound 1000 (primaries 9) operates_primaries 0 1
    (by decide) (by decide) (by unfold Setting.PassesForGenesis; decide +kernel)
    (by unfold Setting.PassesForGenesis; decide +kernel)

end Sample

end DagBft.Primaries
