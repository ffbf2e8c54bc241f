/-
  Whether the headers of a proposer are accepted by `process_header` of other primaries.

  Both sides compute the same facts on different ways: the proposer counts the transactions
  of every batch that is reported to it, `Core` those of every batch of the payload, which
  lists a digest once. `header_accepted_iff` says that this is all that can go wrong.
-/
import DagBft.Primary.Frame
import DagBft.Primary.Proposer

namespace DagBft.Proposer

open Std.Do DagBft.Core

set_option mvcgen.warning false

/-! ## Counts -/

def countOf (counts : OrdMap ℕ ℕ) (account : ℕ) : ℕ := (counts.get account).getD 0

theorem get_foldl_entries (l : List (ℕ × ℕ)) (m : OrdMap ℕ ℕ) (account : ℕ)
    (h : (l.map Prod.fst).Nodup) :
    (l.foldl (fun m x => m.insert x.1 (((m.get x.1).getD 0 + x.2) % 2 ^ 16)) m).get account =
      match (l.find? fun x => x.1 = account).map Prod.snd with
      | none => m.get account
      | some n => some (((m.get account).getD 0 + n) % 2 ^ 16) := by
  induction l generalizing m with
  | nil => rfl
  | cons x l ih =>
      rw [List.map_cons, List.nodup_cons] at h
      rw [List.foldl_cons, ih _ h.2, List.find?_cons]
      by_cases hx : x.1 = account
      · have hnone : l.find? (fun y => y.1 = account) = none := by
          rw [List.find?_eq_none]
          intro y hy he
          refine h.1 ?_
          rw [hx, ← of_decide_eq_true he]
          exact List.mem_map_of_mem hy
        subst hx
        simp [hnone, OrdMap.get_insert]
      · have hne : ¬ account = x.1 := fun he => hx he.symm
        simp [hx, hne, OrdMap.get_insert]

theorem get_addCounts (m counts : OrdMap ℕ ℕ) (account : ℕ) :
    (addCounts m counts).get account = match counts.get account with
      | none => m.get account
      | some n => some (((m.get account).getD 0 + n) % 2 ^ 16) :=
  get_foldl_entries counts.entries m account counts.nodup_keys

/-- The sum of some counts holds the accounts that occur in one of them. -/
theorem get_foldl_addCounts (l : List (OrdMap ℕ ℕ)) (account : ℕ) :
    (l.foldl addCounts ∅).get account =
      if ∃ counts ∈ l, account ∈ counts.keys then
        some ((l.map fun counts => countOf counts account).sum % 2 ^ 16)
      else none := by
  induction l using List.reverseRecOn with
  | nil => simp
  | append_singleton l counts ih =>
      have hexists : (∃ c ∈ l ++ [counts], account ∈ c.keys) ↔
          (∃ c ∈ l, account ∈ c.keys) ∨ account ∈ counts.keys := by
        simp [or_and_right, exists_or]
      rw [List.foldl_append, List.foldl_cons, List.foldl_nil, get_addCounts, ih,
        List.map_append, List.sum_append, List.map_singleton, List.sum_singleton]
      cases hget : counts.get account with
      | none =>
          have hnot : account ∉ counts.keys := fun hmem => by
            have := OrdMap.isSome_get_iff.mpr hmem
            rw [hget] at this
            cases this
          have hzero : countOf counts account = 0 := by rw [countOf, hget]; rfl
          simp only [hexists, hnot, or_false, hzero, Nat.add_zero]
      | some n =>
          have hmem : account ∈ counts.keys := OrdMap.isSome_get_iff.mp (by rw [hget]; rfl)
          have hn : countOf counts account = n := by rw [countOf, hget]; rfl
          simp only [hexists, hmem, or_true, if_true, hn]
          split
          · rw [Option.getD_some, Nat.mod_add_mod]
          · -- nothing was counted before
            rename_i hnone
            have hsum : (l.map fun c => countOf c account).sum = 0 := by
              rw [List.sum_eq_zero_iff]
              intro k hk
              obtain ⟨c, hc, rfl⟩ := List.mem_map.mp hk
              have hget : c.get account = none :=
                OrdMap.get_of_notMem fun hmem => hnone ⟨c, hc, hmem⟩
              rw [countOf, hget]
              rfl
            rw [hsum]
            rfl

/-- Sums over the same counts are equal if every account is counted as often on `u16`. -/
theorem foldl_addCounts_eq_iff {l l' : List (OrdMap ℕ ℕ)} (h : ∀ counts, counts ∈ l ↔ counts ∈ l') :
    l.foldl addCounts ∅ = l'.foldl addCounts ∅ ↔
      ∀ account, (l.map fun counts => countOf counts account).sum % 2 ^ 16 =
        (l'.map fun counts => countOf counts account).sum % 2 ^ 16 := by
  have hsupport : ∀ account, (∃ counts ∈ l, account ∈ counts.keys) ↔
      ∃ counts ∈ l', account ∈ counts.keys := by
    intro account
    simp only [h]
  constructor
  · intro heq account
    have hget := congrArg (fun m => m.get account) heq
    simp only [get_foldl_addCounts, hsupport] at hget
    by_cases hs : ∃ counts ∈ l', account ∈ counts.keys
    · rw [if_pos hs, if_pos hs] at hget
      exact Option.some.inj hget
    · -- nobody counts this account
      have hzero : ∀ l : List (OrdMap ℕ ℕ), (¬ ∃ counts ∈ l, account ∈ counts.keys) →
          (l.map fun counts => countOf counts account).sum = 0 := by
        intro l hl
        rw [List.sum_eq_zero_iff]
        intro k hk
        obtain ⟨c, hc, rfl⟩ := List.mem_map.mp hk
        rw [countOf, OrdMap.get_of_notMem fun hmem => hl ⟨c, hc, hmem⟩]
        rfl
      rw [hzero l fun hl => hs ((hsupport account).mp hl), hzero l' hs]
  · intro hsums
    refine OrdMap.ext_get fun account => ?_
    rw [get_foldl_addCounts, get_foldl_addCounts, hsums]
    exact if_congr (hsupport account) rfl rfl

variable {PublicKey Digest Signature : Type} [LinearOrder PublicKey] [LinearOrder Digest]

/-- The payload lists every pending digest once. -/
theorem mem_keys_collectPayload {digests : List (Digest × ℕ)} {digest : Digest} :
    digest ∈ (collectPayload digests).keys ↔ digest ∈ digests.map Prod.fst := by
  have key : ∀ m : OrdMap Digest ℕ,
      digest ∈ (digests.foldl (fun m x => m.insert x.1 x.2) m).keys ↔
        digest ∈ digests.map Prod.fst ∨ digest ∈ m.keys := by
    induction digests with
    | nil => simp
    | cons x digests ih =>
        intro m
        rw [List.foldl_cons, ih, OrdMap.mem_keys_insert, List.map_cons, List.mem_cons]
        tauto
  rw [collectPayload, key]
  exact or_iff_left List.not_mem_nil

/-- The payload lists pending digests with their workers. -/
theorem mem_of_mem_collectPayload {digests : List (Digest × ℕ)} {x : Digest × ℕ}
    (hx : x ∈ (collectPayload digests).entries) : x ∈ digests := by
  have key : ∀ m : OrdMap Digest ℕ,
      (digests.foldl (fun m x => m.insert x.1 x.2) m).get x.1 = some x.2 →
        x ∈ digests ∨ m.get x.1 = some x.2 := by
    clear hx
    induction digests with
    | nil => exact fun m h => Or.inr h
    | cons y digests ih =>
        intro m h
        rcases ih _ h with hmem | hget
        · exact Or.inl (List.mem_cons_of_mem _ hmem)
        · rw [OrdMap.get_insert] at hget
          split at hget
          · refine Or.inl ?_
            rw [Prod.ext ‹_› (Option.some.inj hget).symm]
            exact List.mem_cons_self
          · exact Or.inr hget
  rcases key ∅ (OrdMap.get_eq_some_iff.mpr hx) with hmem | hget
  · exact hmem
  · cases hget

theorem perm_keys_collectPayload (digests : List (Digest × ℕ)) :
    (collectPayload digests).keys.Perm (digests.map Prod.fst).dedup :=
  (List.perm_ext_iff_of_nodup (OrdMap.nodup_keys _) (List.nodup_dedup _)).mpr fun _ => by
    rw [mem_keys_collectPayload, List.mem_dedup]

/-- For every account, what the digests that came again report cancels on `u16`: counting
    every message is the same as counting every digest once. -/
def RepeatsVanish (reported : Digest → OrdMap ℕ ℕ) (digests : List (Digest × ℕ)) : Prop :=
  ∀ account,
    (digests.map fun x => countOf (reported x.1) account).sum % 2 ^ 16 =
      ((digests.map Prod.fst).dedup.map fun d => countOf (reported d) account).sum % 2 ^ 16

/-- The counts of the pending messages are those of the payload if repetitions vanish. -/
theorem counts_eq_iff (reported : Digest → OrdMap ℕ ℕ) (digests : List (Digest × ℕ)) :
    ((collectPayload digests).entries.map fun x => reported x.1).foldl addCounts ∅ =
        (digests.map fun x => reported x.1).foldl addCounts ∅ ↔
      RepeatsVanish reported digests := by
  have hmem : ∀ counts, counts ∈ (collectPayload digests).entries.map (fun x => reported x.1) ↔
      counts ∈ digests.map fun x => reported x.1 := by
    intro counts
    have hkeys : ∀ l : List (Digest × ℕ),
        l.map (fun x => reported x.1) = (l.map Prod.fst).map reported := fun l => by
      rw [List.map_map]
      rfl
    rw [hkeys, hkeys, List.mem_map, List.mem_map]
    exact exists_congr fun d => and_congr_left' mem_keys_collectPayload
  have hsum : ∀ account, (((collectPayload digests).entries.map fun x => reported x.1).map
      fun counts => countOf counts account).sum =
      ((digests.map Prod.fst).dedup.map fun d => countOf (reported d) account).sum := by
    intro account
    have hperm := (perm_keys_collectPayload digests).map fun d => countOf (reported d) account
    rw [← hperm.sum_eq, OrdMap.keys, List.map_map, List.map_map]
    rfl
  rw [foldl_addCounts_eq_iff hmem]
  unfold RepeatsVanish
  refine forall_congr' fun account => ?_
  rw [hsum, List.map_map]
  exact eq_comm

/-! ## Parents -/

variable [AsBytes PublicKey] [AsBytes Digest] [Sha512 Digest]
  [Inhabited PublicKey] [Inhabited Digest] [Inhabited Signature]
  [Ed25519 PublicKey Digest Signature]

/-- `Core` holds a certificate with this digest. -/
def Holds (p : Core.Params PublicKey) (store : Store PublicKey Digest Signature)
    (c : Certificate PublicKey Digest Signature) (digest : Digest) : Prop :=
  c.digest = digest ∧
    (c ∈ Certificate.genesis p.committee ∨ store (.digest digest) = some (.certificate c))

/-- `Core` has the parents of the header. -/
def HasParents (p : Core.Params PublicKey) (known : Certificate PublicKey Digest Signature → Prop)
    (store : Store PublicKey Digest Signature) (header : Header PublicKey Digest Signature) : Prop :=
  ∀ digest ∈ header.parents.toList, ∃ c, known c ∧ Holds p store c digest

omit [Ed25519 PublicKey Digest Signature] in
/-- With all parents there, `get_parents` reads a certificate for each of them. -/
theorem readParents_eq_ok {p : Core.Params PublicKey}
    {known : Certificate PublicKey Digest Signature → Prop}
    {store : Store PublicKey Digest Signature}
    (hgenesis : ∀ g ∈ Certificate.genesis p.committee, known g) {digests : List Digest}
    (h : ∀ digest ∈ digests, ∃ c, known c ∧ Holds p store c digest) :
    ∃ parents : List (Certificate PublicKey Digest Signature),
      readParents p store digests = .ok (parents, []) ∧
        parents.map Certificate.digest = digests ∧ ∀ c ∈ parents, known c := by
  induction digests with
  | nil => exact ⟨[], rfl, rfl, by simp⟩
  | cons digest digests ih =>
      obtain ⟨parents, hread, hdigests, hknown⟩ :=
        ih fun d hd => h d (List.mem_cons_of_mem _ hd)
      obtain ⟨c, hc, hdigest, hheld⟩ := h digest List.mem_cons_self
      have hcons : ∀ x : Certificate PublicKey Digest Signature, x.digest = digest → known x →
          (x :: parents).map Certificate.digest = digest :: digests ∧
            ∀ c ∈ x :: parents, known c := by
        intro x hx hk
        refine ⟨by rw [List.map_cons, hx, hdigests], fun y hy => ?_⟩
        rcases List.mem_cons.mp hy with rfl | hy
        · exact hk
        · exact hknown y hy
      unfold readParents
      cases hfind : (findGenesis p digest : Option (Certificate PublicKey Digest Signature)) with
      | some g =>
          have hg : g.digest = digest := by simpa [findGenesis] using List.find?_some hfind
          refine ⟨g :: parents, ?_, hcons g hg (hgenesis g (List.mem_of_find?_eq_some hfind))⟩
          rw [hread]
          rfl
      | none =>
          have hstored : store (.digest digest) = some (.certificate c) := by
            refine hheld.resolve_left fun hmem => ?_
            have := List.find?_eq_none.mp hfind c hmem
            simp [hdigest] at this
          refine ⟨c :: parents, ?_, hcons c hdigest hc⟩
          rw [hstored, hread]
          rfl

omit [AsBytes PublicKey] [AsBytes Digest] [Sha512 Digest] [Inhabited PublicKey] [Inhabited Digest]
  [Inhabited Signature] [Ed25519 PublicKey Digest Signature] in
theorem checkParents_eq_ok {p : Core.Params PublicKey}
    {header : Header PublicKey Digest Signature}
    {parents : List (Certificate PublicKey Digest Signature)} {stake : ℕ}
    (h : ∀ c ∈ parents, c.round + 1 = header.round) (hstake : stake < 2 ^ 32) :
    checkParents p header parents stake =
      .ok (u32 (stake + (parents.map fun c => p.committee.stake c.origin).sum)) := by
  induction parents generalizing stake with
  | nil => exact congrArg Except.ok (u32_eq hstake).symm
  | cons c parents ih =>
      have hc := h c List.mem_cons_self
      have hrec := ih (fun x hx => h x (List.mem_cons_of_mem _ hx))
        (u32_lt (stake + p.committee.stake c.origin))
      have hsum : u32 (u32 (stake + p.committee.stake c.origin) +
          (parents.map fun c => p.committee.stake c.origin).sum) =
          u32 (stake + ((c :: parents).map fun c => p.committee.stake c.origin).sum) := by
        unfold u32
        rw [Nat.mod_add_mod, List.map_cons, List.sum_cons, Nat.add_assoc]
      rw [hsum] at hrec
      unfold checkParents ensure
      simp only [hc, decide_true, if_true]
      exact hrec

omit [Inhabited PublicKey] [Inhabited Digest] [Inhabited Signature]
  [Ed25519 PublicKey Digest Signature] in
/-- Certificates with the same digests weigh the same, if the digest tells the author. -/
theorem stakeSum_eq {committee : Committee PublicKey}
    {l l' : List (Certificate PublicKey Digest Signature)}
    (hperm : (l.map Certificate.digest).Perm (l'.map Certificate.digest))
    (horigin : ∀ c ∈ l ++ l', ∀ c' ∈ l ++ l', c.digest = c'.digest → c.origin = c'.origin) :
    stakeSum committee l = stakeSum committee l' := by
  -- the stake as a function of the digest
  let stakeOf (d : Digest) : ℕ :=
    ((l ++ l').find? fun c => c.digest = d).elim 0 fun c => committee.stake c.origin
  have hstake : ∀ k : List (Certificate PublicKey Digest Signature), (∀ c ∈ k, c ∈ l ++ l') →
      (k.map fun c => committee.stake c.origin) = (k.map Certificate.digest).map stakeOf := by
    intro k hk
    rw [List.map_map]
    refine List.map_congr_left fun c hc => ?_
    obtain ⟨c', hc'⟩ := Option.isSome_iff_exists.mp
      (List.find?_isSome.mpr ⟨c, hk c hc, decide_eq_true rfl⟩ :
        ((l ++ l').find? fun x => x.digest = c.digest).isSome = true)
    have hd : c'.digest = c.digest := by simpa using List.find?_some hc'
    show committee.stake c.origin = stakeOf c.digest
    simp only [stakeOf, hc', Option.elim_some]
    rw [horigin c' (List.mem_of_find?_eq_some hc') c (hk c hc) hd]
  unfold stakeSum
  rw [hstake l fun c hc => List.mem_append_left _ hc,
    hstake l' fun c hc => List.mem_append_right _ hc]
  exact congrArg u32 (hperm.map stakeOf).sum_eq

/-! ## The verdict of `process_header` -/

/-- The check of the counts, where it is made. -/
def CountsOk (p : Core.Params PublicKey) (store : Store PublicKey Digest Signature)
    (header : Header PublicKey Digest Signature) : Prop :=
  header.author = p.name ∨ p.baselineMode = true ∨
    expectedCounts store header = header.accountCounts

omit [Ed25519 PublicKey Digest Signature] in
theorem getParents_of_read {p : Core.Params PublicKey}
    {header : Header PublicKey Digest Signature} {store : Store PublicKey Digest Signature}
    {parents : List (Certificate PublicKey Digest Signature)}
    (hread : readParents p store header.parents.toList = .ok (parents, [])) :
    ⦃fun s => ⌜s.store = store⌝⦄ getParents p header
    ⦃post⟨fun result s => ⌜result = parents ∧ s.store = store⌝, fun _ _ => ⌜False⌝⟩⦄ := by
  mvcgen [getParents, orReturn, send]
  · rename_i s hs found hfound hmissing
    rw [hs, hread] at hfound
    obtain rfl := Except.ok.inj hfound
    exact ⟨rfl, hs⟩
  · rename_i s hs found hfound hmissing _
    rw [hs, hread] at hfound
    obtain rfl := Except.ok.inj hfound
    exact absurd rfl hmissing
  · rename_i s hs e hfound
    rw [hs, hread] at hfound
    cases hfound

omit [AsBytes PublicKey] [AsBytes Digest] [Sha512 Digest] [Inhabited PublicKey] [Inhabited Digest]
  [Inhabited Signature] [Ed25519 PublicKey Digest Signature] in
theorem missingPayload_of_stored {p : Core.Params PublicKey}
    {header : Header PublicKey Digest Signature} {store : Store PublicKey Digest Signature}
    (hpayload : header.author = p.name ∨ missingBatches store header = []) :
    ⦃fun s => ⌜s.store = store⌝⦄ missingPayload p header
    ⦃post⟨fun result s => ⌜result = false ∧ s.store = store⌝, fun _ _ => ⌜False⌝⟩⦄ := by
  mvcgen [missingPayload, send]
  rename_i hauthor s hs missing hmissing _
  refine absurd ?_ hmissing
  show missingBatches s.store header = []
  rw [hs]
  exact hpayload.resolve_left hauthor

/-- With the parents and the payload there, `process_header` returns an error exactly if the
    counts are not those that it computes. -/
theorem processHeader_verdict {p : Core.Params PublicKey}
    {header : Header PublicKey Digest Signature} {store : Store PublicKey Digest Signature}
    {parents : List (Certificate PublicKey Digest Signature)} {stake : ℕ}
    (hread : readParents p store header.parents.toList = .ok (parents, [])) (hne : parents ≠ [])
    (hcheck : checkParents p header parents 0 = .ok stake)
    (hquorum : p.committee.quorumThreshold ≤ stake)
    (hpayload : header.author = p.name ∨ missingBatches store header = []) (n : ℕ) :
    ⦃fun s => ⌜s.store = store⌝⦄ processHeader p (n + 1) header
    ⦃post⟨fun _ _ => ⌜CountsOk p store header⌝,
      fun e _ => ⌜(∃ d, e = .dag d) ↔ ¬ CountsOk p store header⌝⟩⦄ := by
  have hmark : ⦃fun s => ⌜s.store = store⌝⦄ markProcessing header
      ⦃post⟨fun _ s => ⌜s.store = store⌝, fun _ _ => ⌜False⌝⟩⦄ := by
    mvcgen [markProcessing]
  have hparents := getParents_of_read hread
  have hmissing := missingPayload_of_stored hpayload
  have hwrite : ⦃fun _ => ⌜CountsOk p store header⌝⦄
      writeStore (.digest header.id) (.header header)
      ⦃post⟨fun _ _ => ⌜CountsOk p store header⌝, fun _ _ => ⌜False⌝⟩⦄ := by
    mvcgen [writeStore]
  have hcreate : ⦃fun _ => ⌜CountsOk p store header⌝⦄ createVote p header
      ⦃post⟨fun _ _ => ⌜CountsOk p store header⌝, fun _ _ => ⌜False⌝⟩⦄ := by
    mvcgen [createVote, send]
  have hvote : ∀ v : Vote PublicKey Digest Signature,
      ⦃fun _ => ⌜CountsOk p store header⌝⦄ processVoteWith p (processHeader p n) v
      ⦃post⟨fun _ _ => ⌜CountsOk p store header⌝, fun _ _ => ⌜CountsOk p store header⌝⟩⦄ :=
    fun v => triple_const (processVoteWith p (processHeader p n) v)
  -- what comes after the checks is no error of the header
  have hpanic : ∀ e : Fault PublicKey Digest, CountsOk p store header → (∀ d, e ≠ .dag d) →
      ((∃ d, e = .dag d) ↔ ¬ CountsOk p store header) := by
    intro e hc he
    constructor
    · rintro ⟨d, hd⟩
      exact absurd hd (he d)
    · exact fun hn => absurd hc hn
  have hskip : ¬ (header.author ≠ p.name ∧ p.baselineMode = false) → CountsOk p store header := by
    intro hn
    by_cases ha : header.author = p.name
    · exact Or.inl ha
    · exact Or.inr (Or.inl (eq_true_of_ne_false fun hb => hn ⟨ha, hb⟩))
  mvcgen [processHeader, hmark, hparents, hmissing, hwrite, hcreate, hvote, send, orReturn, expect]
  · -- the parents are not empty
    rename_i hempty s hp
    exact absurd (hp.1.symm.trans hempty) hne
  · exact (‹_ ∧ _› : _ ∧ _).2
  · -- nor is a batch missing
    rename_i htrue s hp
    rw [hp.1] at htrue
    cases htrue
  · -- the counts are compared
    rename_i s hp _ hcounts
    refine Or.inr (Or.inr ?_)
    rw [← hp.2]
    exact of_decide_eq_true (ensure_eq_ok.mp hcounts)
  · exact hpanic .panic ‹_› (by simp)
  · exact hpanic _ ‹_› ‹_›
  · exact hpanic .panic ‹_› (by simp)
  · rename_i hauthor s hp e hcounts
    refine ⟨fun _ hok => ?_, fun _ => ⟨e, rfl⟩⟩
    rcases hok with ha | hb | heq
    · exact hauthor.1 ha
    · rw [hauthor.2] at hb
      cases hb
    · rw [hp.2] at hcounts
      exact absurd hcounts (ensure_ne_error (decide_eq_true heq))
  · exact hskip ‹_›
  · exact hpanic .panic ‹_› (by simp)
  · exact hpanic _ ‹_› ‹_›
  · exact hpanic .panic ‹_› (by simp)
  · rename_i hp total htotal e hlow
    rw [hp.1, hcheck] at htotal
    obtain rfl := Except.ok.inj htotal
    exact absurd hlow (ensure_ne_error (decide_eq_true hquorum))
  · rename_i hp e hwrong
    rw [hp.1, hcheck] at hwrong
    cases hwrong

/-- `process_header` returns an error. -/
def Rejects (p : Core.Params PublicKey) (t : Core.State PublicKey Digest Signature)
    (header : Header PublicKey Digest Signature) : Prop :=
  ∃ e, ((processHeader p recursionDepth header).run.run t).1 = .error (.dag e)

/-- `Core` has stored the counts that the workers reported for the payload. -/
def HasCounts (store : Store PublicKey Digest Signature) (reported : Digest → OrdMap ℕ ℕ)
    (header : Header PublicKey Digest Signature) : Prop :=
  ∀ x ∈ header.payload.entries, store (.payload x.1 x.2) = some (.accountCounts (reported x.1))

omit [LinearOrder PublicKey] [AsBytes PublicKey] [AsBytes Digest] [Sha512 Digest]
  [Inhabited PublicKey] [Inhabited Digest] [Inhabited Signature]
  [Ed25519 PublicKey Digest Signature] in
theorem missingBatches_eq_nil {store : Store PublicKey Digest Signature}
    {reported : Digest → OrdMap ℕ ℕ} {header : Header PublicKey Digest Signature}
    (h : HasCounts store reported header) : missingBatches store header = [] := by
  unfold missingBatches
  rw [List.filter_eq_nil_iff]
  intro x hx
  rw [h x hx]
  exact Bool.false_ne_true

omit [LinearOrder PublicKey] [AsBytes PublicKey] [AsBytes Digest] [Sha512 Digest]
  [Inhabited PublicKey] [Inhabited Digest] [Inhabited Signature]
  [Ed25519 PublicKey Digest Signature] in
theorem expectedCounts_eq {store : Store PublicKey Digest Signature}
    {reported : Digest → OrdMap ℕ ℕ} {header : Header PublicKey Digest Signature}
    (h : HasCounts store reported header) :
    expectedCounts store header =
      (header.payload.entries.map fun x => reported x.1).foldl addCounts ∅ := by
  unfold expectedCounts
  rw [List.foldl_map]
  refine List.foldl_ext _ _ _ fun expected x hx => ?_
  rw [h x hx]

variable {p : Params PublicKey} {q : Core.Params PublicKey}
  {known : Certificate PublicKey Digest Signature → Prop} {reported : Digest → OrdMap ℕ ℕ}
  {s : State Digest} {t : Core.State PublicKey Digest Signature}

omit [Ed25519 PublicKey Digest Signature] in
/-- Parents that a quorum of the round before hands out pass the checks of `Core`. -/
theorem checks_of_counted {header : Header PublicKey Digest Signature}
    {store : Store PublicKey Digest Signature} {round : ℕ}
    {counted : List (Certificate PublicKey Digest Signature)}
    (hgenesis : ∀ g ∈ Certificate.genesis q.committee, known g)
    (hfree : ∀ c c', known c → known c' → c.digest = c'.digest →
      c.round = c'.round ∧ c.origin = c'.origin)
    (hcounted : Counted known round counted) (hround : header.round = round + 1)
    (hdigests : header.parents = OrdSet.ofList (counted.map Certificate.digest))
    (hquorum : q.committee.quorumThreshold ≤ stakeSum q.committee counted)
    (hparents : HasParents q known store header) :
    ∃ (parents : List (Certificate PublicKey Digest Signature)) (stake : ℕ),
      readParents q store header.parents.toList = .ok (parents, []) ∧
      parents ≠ [] ∧ checkParents q header parents 0 = .ok stake ∧
      q.committee.quorumThreshold ≤ stake := by
  have hk : ∀ c ∈ counted, known c := fun c hc => (hcounted.known c hc).1
  have hnodup : (counted.map Certificate.digest).Nodup := by
    refine (List.nodup_map_iff_inj_on (List.Nodup.of_map _ hcounted.distinct)).mpr ?_
    intro c hc c' hc' hd
    exact List.inj_on_of_nodup_map hcounted.distinct hc hc' (hfree c c' (hk c hc) (hk c' hc') hd).2
  obtain ⟨parents, hread, hmap, hknown⟩ := readParents_eq_ok hgenesis hparents
  have hperm : (parents.map Certificate.digest).Perm (counted.map Certificate.digest) := by
    rw [hmap, hdigests]
    exact OrdSet.perm_ofList hnodup
  have hrounds : ∀ c ∈ parents, c.round + 1 = header.round := by
    intro c hc
    obtain ⟨c', hc', hd⟩ := List.mem_map.mp (hperm.mem_iff.mp (List.mem_map_of_mem hc))
    rw [hround, ← (hcounted.known c' hc').2, (hfree c' c (hk c' hc') (hknown c hc) hd).1]
  have hall : ∀ c ∈ parents ++ counted, known c := by
    intro c hc
    rcases List.mem_append.mp hc with hc | hc
    · exact hknown c hc
    · exact hk c hc
  have hstake : stakeSum q.committee parents = stakeSum q.committee counted :=
    stakeSum_eq hperm fun c hc c' hc' hd => (hfree c c' (hall c hc) (hall c' hc') hd).2
  refine ⟨parents, stakeSum q.committee parents, hread, ?_, ?_, hstake ▸ hquorum⟩
  · rintro rfl
    -- nothing is no quorum
    rw [← hstake] at hquorum
    exact absurd hquorum (Nat.not_succ_le_zero _)
  · have hcheck := checkParents_eq_ok (p := q) hrounds (Nat.two_pow_pos 32)
    rwa [Nat.zero_add] at hcheck

/-- A header of an honest proposer is accepted by `Core` with the same committee, which has
    its parents and the counts of its batches, exactly if it is our own header, or counts are
    not tracked, or the digests that were reported repeatedly do not change the counts. The
    counts of our own batches are not stored and not needed. -/
theorem header_accepted_iff (p : Params PublicKey) (q : Core.Params PublicKey)
    (known : Certificate PublicKey Digest Signature → Prop) (reported : Digest → OrdMap ℕ ℕ)
    (s : State Digest) (t : Core.State PublicKey Digest Signature) (timerExpired : Bool) (now : ℕ)
    (hcommittee : q.committee = p.committee) (hvotes : 0 < p.committee.totalVotes)
    (hgenesis : ∀ g ∈ Certificate.genesis p.committee, known g)
    (hfree : ∀ c c', known c → known c' → c.digest = c'.digest →
      c.round = c'.round ∧ c.origin = c'.origin)
    (hrun : Run p known reported s) (hproposes : proposes p timerExpired s = true)
    (hparents : HasParents q known t.store (newHeader Signature p now s))
    (hcounts : p.name ≠ q.name → HasCounts t.store reported (newHeader Signature p now s)) :
    ¬ Rejects q t (newHeader Signature p now s) ↔
      p.name = q.name ∨ q.baselineMode = true ∨ RepeatsVanish reported s.digests := by
  have hi := proposerInv_of_run hvotes hgenesis hrun
  have hlast : s.lastParents ≠ [] := by
    simp only [proposes, Bool.and_eq_true, decide_eq_true_eq] at hproposes
    exact hproposes.2
  obtain ⟨counted, round, hcounted, hround, hdigests, hcountedQuorum⟩ := hi.parents hlast
  obtain ⟨parents, stake, hread, hne, hcheck, hquorum⟩ :=
    checks_of_counted (hcommittee ▸ hgenesis) hfree hcounted hround
      (congrArg OrdSet.ofList hdigests) (hcommittee ▸ hcountedQuorum) hparents
  have hok : CountsOk q t.store (newHeader Signature p now s) ↔
      p.name = q.name ∨ q.baselineMode = true ∨ RepeatsVanish reported s.digests := by
    by_cases hname : p.name = q.name
    · exact iff_of_true (Or.inl hname) (Or.inl hname)
    · refine or_congr Iff.rfl (or_congr Iff.rfl ?_)
      rw [expectedCounts_eq (hcounts hname)]
      show _ = s.accountCounts ↔ _
      rw [hi.counts]
      exact counts_eq_iff reported s.digests
  have hpayload : p.name = q.name ∨ missingBatches t.store (newHeader Signature p now s) = [] :=
    or_iff_not_imp_left.mpr fun hname => missingBatches_eq_nil (hcounts hname)
  have key := run_of_triple (processHeader_verdict hread hne hcheck hquorum hpayload 1) t rfl
  rw [← hok]
  unfold Rejects recursionDepth
  generalize (processHeader q 2 (newHeader Signature p now s)).run.run t = x at key ⊢
  obtain ⟨result, t'⟩ := x
  cases result with
  | ok u => exact ⟨fun _ => key, fun _ ⟨e, he⟩ => by cases he⟩
  | error e =>
      have hiff : (∃ d, (Except.error e : Except (Fault PublicKey Digest) Unit) = .error (.dag d)) ↔
          ∃ d, e = .dag d := by simp
      have hkey : (∃ d, e = .dag d) ↔ ¬ CountsOk q t.store (newHeader Signature p now s) := key
      rw [hiff, hkey, not_not]

/-! ## A batch that is reported twice

Four authorities with one vote each; authority 0 proposes, and authority 1 receives. -/

section Sample

open Toy

namespace AcceptanceSample

def committee : Committee ℕ :=
  ⟨⟨[(0, ⟨1, []⟩), (1, ⟨1, []⟩), (2, ⟨1, []⟩), (3, ⟨1, []⟩)], Committee.sorted_four⟩⟩

def proposer : Params ℕ := ⟨0, committee, 1000⟩

def core : Core.Params ℕ := ⟨1, committee, 50, false⟩

/-- Every batch holds one transaction of account 5. -/
def batchCounts (_ : ℕ) : OrdMap ℕ ℕ := (∅ : OrdMap ℕ ℕ).insert 5 1

/-- The worker reports batches 7 and 8. -/
def twoBatches : State ℕ :=
  step proposer
    (step proposer (State.initial Unit proposer) false (.ourBatch 7 0 (batchCounts 7) 0))
    false (.ourBatch 8 0 (batchCounts 8) 0)

/-- The worker reports batch 7 twice. -/
def batchTwice : State ℕ :=
  step proposer
    (step proposer (State.initial Unit proposer) false (.ourBatch 7 0 (batchCounts 7) 0))
    false (.ourBatch 7 0 (batchCounts 7) 0)

/-- All batches are stored. -/
def stored : Core.State ℕ ℕ Unit :=
  { (Core.State.initial : Core.State ℕ ℕ Unit) with
    store := fun k => match k with
      | .payload d _ => some (.accountCounts (batchCounts d))
      | .digest _ => none }

def IsGenesis (c : Certificate ℕ ℕ Unit) : Prop := c ∈ Certificate.genesis committee

theorem genesis_free (c c' : Certificate ℕ ℕ Unit) (hc : IsGenesis c) (hc' : IsGenesis c')
    (hd : c.digest = c'.digest) : c.round = c'.round ∧ c.origin = c'.origin := by
  have key : ∀ c ∈ (Certificate.genesis committee : List (Certificate ℕ ℕ Unit)),
      ∀ c' ∈ (Certificate.genesis committee : List (Certificate ℕ ℕ Unit)),
      c.digest = c'.digest → c.round = c'.round ∧ c.origin = c'.origin := by
    decide +kernel
  exact key c hc c' hc' hd

theorem run_twoBatches : Run proposer IsGenesis batchCounts twoBatches :=
  Run.step (Run.step Run.initial false (.ourBatch 7 0 (batchCounts 7) 0) rfl) false
    (.ourBatch 8 0 (batchCounts 8) 0) rfl

theorem run_batchTwice : Run proposer IsGenesis batchCounts batchTwice :=
  Run.step (Run.step Run.initial false (.ourBatch 7 0 (batchCounts 7) 0) rfl) false
    (.ourBatch 7 0 (batchCounts 7) 0) rfl

/-- The parents are the genesis certificates. -/
theorem hasParents {s : State ℕ} (hs : ∀ d ∈ s.lastParents,
    ∃ c ∈ (Certificate.genesis committee : List (Certificate ℕ ℕ Unit)), c.digest = d) :
    HasParents core IsGenesis stored.store (newHeader Unit proposer 0 s) := by
  intro d hd
  obtain ⟨c, hc, rfl⟩ := hs d (OrdSet.mem_ofList.mp hd)
  exact ⟨c, hc, rfl, Or.inl hc⟩

end AcceptanceSample

open AcceptanceSample

theorem header_accepted_iff_sample : ¬ Rejects core stored (newHeader Unit proposer 0 twoBatches) :=
  (header_accepted_iff proposer core IsGenesis batchCounts twoBatches stored true 0 rfl
    (by decide +kernel) (fun _ hg => hg) genesis_free run_twoBatches (by decide +kernel)
    (hasParents (by decide +kernel)) (fun _ _ _ => rfl)).mpr
    (Or.inr (Or.inr fun _ => rfl))

/-- The counts of a batch that is reported twice are added twice by its author, and once by
    the others, which reject the header. -/
theorem header_rejected :
    ¬ ∀ (p : Params ℕ) (q : Core.Params ℕ) (known : Certificate ℕ ℕ Unit → Prop)
        (reported : ℕ → OrdMap ℕ ℕ) (s : State ℕ) (t : Core.State ℕ ℕ Unit) (timerExpired : Bool)
        (now : ℕ),
      q.committee = p.committee → 0 < p.committee.totalVotes →
      (∀ g ∈ Certificate.genesis p.committee, known g) →
      (∀ c c', known c → known c' → c.digest = c'.digest →
        c.round = c'.round ∧ c.origin = c'.origin) →
      Run p known reported s → proposes p timerExpired s = true →
      HasParents q known t.store (newHeader Unit p now s) →
      HasCounts t.store reported (newHeader Unit p now s) →
      ¬ Rejects q t (newHeader Unit p now s) := by
  intro h
  refine h proposer core IsGenesis batchCounts batchTwice stored true 0 rfl (by decide +kernel)
    (fun _ hg => hg) genesis_free run_batchTwice (by decide +kernel)
    (hasParents (by decide +kernel)) (fun _ _ => rfl) ?_
  exact ⟨.malformedHeader (newHeader Unit proposer 0 batchTwice).id, by rfl⟩

end Sample

end DagBft.Proposer
