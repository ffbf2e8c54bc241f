/-
  The way of a migration notice from consensus to a client: `analyze` (`node/src/main.rs`)
  sends it to a worker, and the worker forwards it to the client of the validator that the
  account is at home with (`handle_migration_notices` in `worker/src/synchronizer.rs`).

  A worker receives what was sent to it, in this order. A message of a worker is listed with
  the validator whose client it goes to.

  `exactlyOnce_iff`: every notice arrives exactly once, and in order, exactly if the workers
  have the ids that the notices are sent to, the clients are known, and no range ends where
  `u64` does.
-/
import DagBft.Node.Analyze

namespace DagBft.Node

/-- Forwarded to the clients. -/
structure MigrationMessage (PublicKey : Type) where
  sender : PublicKey
  notices : List (MigrationNotice PublicKey)
deriving DecidableEq

/-- What the workers of a validator bring to `handle_migration_notices`: its name, the
    committee, and the order in which a worker goes through the map that it makes for its
    `j`-th message. -/
structure Forwarding (PublicKey : Type) [LinearOrder PublicKey] where
  name : PublicKey
  committee : Committee PublicKey
  /-- `(account_start, account_count)` of each validator. -/
  accountRanges : OrdMap PublicKey (ℕ × ℕ)
  order : ℕ → ℕ → List PublicKey → List PublicKey
  order_perm : ∀ worker j l, (order worker j l).Perm l

section

variable {PublicKey Digest Signature : Type} [LinearOrder PublicKey] [LinearOrder Digest]

/-- The validator whose account range contains the account. -/
def homeValidator (accountRanges : OrdMap PublicKey (ℕ × ℕ)) (accountId : ℕ) :
    Option PublicKey :=
  accountRanges.entries.findSome? fun x =>
    if x.2.1 ≤ accountId ∧ accountId < (x.2.1 + x.2.2) % 2 ^ 64 then some x.1 else none

/-- Group notices by home validator (= the client that needs to reroute). -/
def perClient (accountRanges : OrdMap PublicKey (ℕ × ℕ))
    (notices : List (MigrationNotice PublicKey)) :
    AList fun _ : PublicKey => List (MigrationNotice PublicKey) :=
  AList.group (notices.filterMap fun notice =>
    (homeValidator accountRanges notice.accountId).map fun pk => (pk, notice))

/-- Forward migration notices to the affected clients. -/
def handleMigrationNotices (f : Forwarding PublicKey) (worker j : ℕ)
    (notices : List (MigrationNotice PublicKey)) :
    List (PublicKey × MigrationMessage PublicKey) :=
  let perClient := perClient f.accountRanges notices
  ((f.order worker j perClient.keys).filter (· ∈ f.committee.keys)).flatMap fun client =>
    (chunks migrationChunkSize ((perClient.lookup client).getD [])).map fun chunk =>
      (client, ⟨f.name, chunk⟩)

/-- What a worker forwards, from its `j`-th message on. -/
def forwardFrom (f : Forwarding PublicKey) (worker : ℕ) :
    ℕ → List (PrimaryWorkerMessage PublicKey Digest) →
      List (PublicKey × MigrationMessage PublicKey)
  | _, [] => []
  | j, .migrationNotices notices :: messages =>
      handleMigrationNotices f worker j notices ++ forwardFrom f worker (j + 1) messages
  | j, _ :: messages => forwardFrom f worker (j + 1) messages

/-- The messages to `k`, in the order they were sent. -/
def streamTo {K M : Type} [DecidableEq K] (k : K) (messages : List (K × M)) : List M :=
  (messages.filter fun x => x.1 = k).map Prod.snd

/-- The notices that the client of a validator gets from a worker. -/
def received (f : Forwarding PublicKey)
    (sent : List (List (ℕ × PrimaryWorkerMessage PublicKey Digest))) (worker : ℕ)
    (client : PublicKey) : List (MigrationNotice PublicKey) :=
  (streamTo client (forwardFrom f worker 0 (streamTo worker sent.flatten))).flatMap
    MigrationMessage.notices

/-! ## One message in chunks -/

theorem flatten_chunks {α : Type} {size : ℕ} (hsize : size ≠ 0) (l : List α) :
    (chunks size l).flatten = l := by
  fun_induction chunks size l with
  | case1 l h =>
      obtain rfl := h.resolve_left hsize
      rfl
  | case2 l h ih => rw [List.flatten_cons, ih, List.take_append_drop]

theorem streamTo_append {K M : Type} [DecidableEq K] (k : K) (xs ys : List (K × M)) :
    streamTo k (xs ++ ys) = streamTo k xs ++ streamTo k ys := by
  simp [streamTo]

/-- What is sent in chunks to several receivers is received as it was. -/
theorem streamTo_chunks {K M α : Type} [DecidableEq K] {size : ℕ} (hsize : size ≠ 0)
    {keys : List K} (hnodup : keys.Nodup) (f : K → List α) (message : List α → M)
    (content : M → List α) (hcontent : ∀ chunk, content (message chunk) = chunk) (k : K) :
    (streamTo k (keys.flatMap fun k' =>
      (chunks size (f k')).map fun chunk => (k', message chunk))).flatMap content =
      if k ∈ keys then f k else [] := by
  have hother : ∀ k', k' ≠ k →
      streamTo k ((chunks size (f k')).map fun chunk => (k', message chunk)) = [] := by
    intro k' hne
    simp [streamTo, List.filter_map, Function.comp_def, hne]
  have hsame : (streamTo k ((chunks size (f k)).map fun chunk =>
      (k, message chunk))).flatMap content = f k := by
    have hstream : streamTo k ((chunks size (f k)).map fun chunk => (k, message chunk)) =
        (chunks size (f k)).map message := by
      simp [streamTo, List.filter_map, Function.comp_def]
    rw [hstream, List.flatMap_map]
    simp only [hcontent, List.flatMap_id']
    exact flatten_chunks hsize (f k)
  induction keys with
  | nil => rfl
  | cons k' keys ih =>
      rw [List.nodup_cons] at hnodup
      rw [List.flatMap_cons, streamTo_append, List.flatMap_append, ih hnodup.2]
      by_cases hk : k' = k
      · subst hk
        rw [hsame, if_neg hnodup.1, if_pos List.mem_cons_self, List.append_nil]
      · rw [hother k' hk]
        simp [List.mem_cons, Ne.symm hk]

/-- A map that groups its values by key, sent in chunks to the receivers that are known. -/
theorem streamTo_group {K M α : Type} [DecidableEq K] {size : ℕ} (hsize : size ≠ 0)
    (l : List (K × α)) {keys : List K} (hkeys : keys.Perm (AList.group l).keys) (known : K → Bool)
    (message : List α → M) (content : M → List α)
    (hcontent : ∀ chunk, content (message chunk) = chunk) (k : K) :
    (streamTo k ((keys.filter known).flatMap fun k' =>
      (chunks size (((AList.group l).lookup k').getD [])).map fun chunk =>
        (k', message chunk))).flatMap content =
      if known k then (l.filter fun x => x.1 = k).map Prod.snd else [] := by
  have hnodup : (keys.filter known).Nodup :=
    (hkeys.nodup_iff.mpr (AList.keys_nodup _)).filter _
  rw [streamTo_chunks hsize hnodup _ message content hcontent, AList.lookup_group]
  by_cases hknown : known k = true
  · have hiff : k ∈ keys.filter known ↔ k ∈ l.map Prod.fst := by
      rw [List.mem_filter, hkeys.mem_iff, and_iff_left hknown]
      exact AList.mem_group
    rw [if_pos hknown]
    by_cases hmem : k ∈ l.map Prod.fst
    · rw [if_pos (hiff.mpr hmem)]
    · have hnil : l.filter (fun x => x.1 = k) = [] := by
        rw [List.filter_eq_nil_iff]
        intro x hx heq
        exact hmem (List.mem_map.mpr ⟨x, hx, of_decide_eq_true heq⟩)
      rw [hnil, if_neg fun hk => hmem (hiff.mp hk)]
      rfl
  · rw [if_neg hknown, if_neg]
    intro hmem
    exact hknown (List.mem_filter.mp hmem).2

theorem filter_key {K α : Type} [DecidableEq K] (key : α → Option K) (l : List α) (k : K) :
    ((l.filterMap fun x => (key x).map fun k => (k, x)).filter fun x => x.1 = k).map Prod.snd =
      l.filter fun x => key x = some k := by
  induction l with
  | nil => rfl
  | cons x l ih =>
      cases hkey : key x with
      | none => simp [hkey, ih]
      | some k' =>
          by_cases hk : k' = k
          · simp [hkey, hk, ih]
          · simp [hkey, hk, ih]

/-! ## What a worker and a client receive -/

/-- The notices of a message to a worker. -/
def PrimaryWorkerMessage.notices :
    PrimaryWorkerMessage PublicKey Digest → List (MigrationNotice PublicKey)
  | .migrationNotices notices => notices
  | _ => []

theorem streamTo_handleMigrationNotices (f : Forwarding PublicKey) (worker j : ℕ)
    (notices : List (MigrationNotice PublicKey)) (client : PublicKey) :
    (streamTo client (handleMigrationNotices f worker j notices)).flatMap
        MigrationMessage.notices =
      if client ∈ f.committee.keys then
        notices.filter fun notice => homeValidator f.accountRanges notice.accountId = some client
      else [] := by
  have hsize : migrationChunkSize ≠ 0 := by decide
  have hgroup := streamTo_group hsize _
    (f.order_perm worker j (perClient f.accountRanges notices).keys)
    (fun client => decide (client ∈ f.committee.keys)) (MigrationMessage.mk f.name)
    MigrationMessage.notices (fun _ => rfl) client
  rw [filter_key] at hgroup
  simp only [decide_eq_true_eq] at hgroup
  exact hgroup

omit [LinearOrder Digest] in
theorem streamTo_forwardFrom (f : Forwarding PublicKey) (worker j : ℕ)
    (messages : List (PrimaryWorkerMessage PublicKey Digest)) (client : PublicKey) :
    (streamTo client (forwardFrom f worker j messages)).flatMap MigrationMessage.notices =
      if client ∈ f.committee.keys then
        (messages.flatMap PrimaryWorkerMessage.notices).filter fun notice =>
          homeValidator f.accountRanges notice.accountId = some client
      else [] := by
  induction messages generalizing j with
  | nil => exact (ite_self _).symm
  | cons message messages ih =>
      cases message with
      | migrationNotices notices =>
          rw [forwardFrom, streamTo_append, List.flatMap_append, ih,
            streamTo_handleMigrationNotices, List.flatMap_cons, List.filter_append]
          split
          · rfl
          · rfl
      | committedBatches round digests =>
          rw [forwardFrom, ih, List.flatMap_cons]
          · rfl
          · exact fun _ h => nomatch h
      | execute digest worker' sequence =>
          rw [forwardFrom, ih, List.flatMap_cons]
          · rfl
          · exact fun _ h => nomatch h

omit [LinearOrder PublicKey] [LinearOrder Digest] in
theorem streamTo_sendNotices {v : Validator} (notices : List (MigrationNotice PublicKey))
    (i worker : ℕ) :
    (streamTo worker (sendNotices v.ourWorkers (perWorkerNotices v.ourWorkers.length notices)
        (v.order i (perWorkerNotices v.ourWorkers.length notices).keys) :
        List (ℕ × PrimaryWorkerMessage PublicKey Digest))).flatMap PrimaryWorkerMessage.notices =
      if worker ∈ v.ourWorkers then
        notices.filter fun notice => u32 (notice.accountId % v.ourWorkers.length) = worker
      else [] := by
  have hsize : migrationChunkSize ≠ 0 := by decide
  have hgroup := streamTo_group hsize
    (notices.map fun notice => (u32 (notice.accountId % v.ourWorkers.length), notice))
    (v.order_perm i _) (fun worker => decide (worker ∈ v.ourWorkers))
    (.migrationNotices : _ → PrimaryWorkerMessage PublicKey Digest)
    PrimaryWorkerMessage.notices (fun _ => rfl) worker
  have hsnd : (Prod.snd ∘ fun notice : MigrationNotice PublicKey =>
      (u32 (notice.accountId % v.ourWorkers.length), notice)) = id := rfl
  rw [List.filter_map, List.map_map, hsnd, List.map_id] at hgroup
  simp only [decide_eq_true_eq] at hgroup
  exact hgroup

variable (Digest Signature) in
omit [LinearOrder PublicKey] in
/-- A worker gets the notices that are numbered for it, if it exists. -/
theorem analyzeFrom_migrations {v : Validator} (hworkers : v.ourWorkers ≠ []) (i next : ℕ)
    (lists : List (List (MigrationNotice PublicKey))) :
    ∃ sent : List (List (ℕ × PrimaryWorkerMessage PublicKey Digest)),
      analyzeFrom v i next
        (lists.map (.migrations : _ → ConsensusOutput PublicKey Digest Signature)) = some sent ∧
      ∀ worker, (streamTo worker sent.flatten).flatMap PrimaryWorkerMessage.notices =
        if worker ∈ v.ourWorkers then
          lists.flatten.filter fun notice =>
            u32 (notice.accountId % v.ourWorkers.length) = worker
        else [] := by
  induction lists generalizing i with
  | nil => exact ⟨[], rfl, fun worker => (ite_self _).symm⟩
  | cons notices lists ih =>
      obtain ⟨rest, hrest, hstream⟩ := ih (i + 1)
      let perWorker := perWorkerNotices v.ourWorkers.length notices
      refine ⟨sendNotices v.ourWorkers perWorker (v.order i perWorker.keys) :: rest, ?_, ?_⟩
      · rw [List.map_cons, analyzeFrom, analyzeOutput, if_neg hworkers]
        simp only [Option.bind_eq_bind, Option.bind_some, hrest]
        rfl
      · intro worker
        rw [List.flatten_cons, streamTo_append, List.flatMap_append, hstream,
          streamTo_sendNotices, List.flatten_cons, List.filter_append]
        split
        · rfl
        · rfl

omit [LinearOrder Digest] in
/-- The notices that a client gets from a worker. -/
theorem received_eq {f : Forwarding PublicKey}
    {sent : List (List (ℕ × PrimaryWorkerMessage PublicKey Digest))} (worker : ℕ)
    (client : PublicKey) :
    received f sent worker client =
      if client ∈ f.committee.keys then
        ((streamTo worker sent.flatten).flatMap PrimaryWorkerMessage.notices).filter fun notice =>
          homeValidator f.accountRanges notice.accountId = some client
      else [] :=
  streamTo_forwardFrom f worker 0 _ client

/-! ## Exactly once -/

/-- The account is in the range of the validator. -/
def HasAccount (accountRanges : OrdMap PublicKey (ℕ × ℕ)) (validator : PublicKey)
    (accountId : ℕ) : Prop :=
  ∃ range, accountRanges.get validator = some range ∧
    range.1 ≤ accountId ∧ accountId < range.1 + range.2

/-- No account is in the ranges of two validators. -/
def RangesDisjoint (accountRanges : OrdMap PublicKey (ℕ × ℕ)) : Prop :=
  ∀ validator validator' accountId, HasAccount accountRanges validator accountId →
    HasAccount accountRanges validator' accountId → validator = validator'

/-- The notices about an account. -/
def about (accountId : ℕ) (notices : List (MigrationNotice PublicKey)) :
    List (MigrationNotice PublicKey) :=
  notices.filter fun notice => notice.accountId = accountId

/-- The client of the validator that has an account gets the notices about it once and in
    their order, from one worker. Nobody else gets them. -/
def ExactlyOnce (accountRanges : OrdMap PublicKey (ℕ × ℕ))
    (notices : List (MigrationNotice PublicKey))
    (received : ℕ → PublicKey → List (MigrationNotice PublicKey)) : Prop :=
  ∃ through : ℕ → ℕ, ∀ accountId worker client,
    (worker = through accountId ∧ HasAccount accountRanges client accountId →
      about accountId (received worker client) = about accountId notices) ∧
    (¬ (worker = through accountId ∧ HasAccount accountRanges client accountId) →
      about accountId (received worker client) = [])

/-- The worker that the account is numbered for exists. The account is in the range of an
    authority, and this range ends below `2 ^ 64`. -/
def GetsThrough (v : Validator) (f : Forwarding PublicKey) (accountId : ℕ) : Prop :=
  u32 (accountId % v.ourWorkers.length) ∈ v.ourWorkers ∧
    ∃ client ∈ f.committee.keys, ∃ range, f.accountRanges.get client = some range ∧
      range.1 ≤ accountId ∧ accountId < range.1 + range.2 ∧ range.1 + range.2 < 2 ^ 64

/-- What `homeValidator` finds is a range that has the account and does not end at `2 ^ 64`
    or above. -/
theorem range_of_homeValidator {accountRanges : OrdMap PublicKey (ℕ × ℕ)}
    (hcount : ∀ x ∈ accountRanges.entries, x.2.2 < 2 ^ 64) {accountId : ℕ} {client : PublicKey}
    (h : homeValidator accountRanges accountId = some client) :
    ∃ range, accountRanges.get client = some range ∧
      range.1 ≤ accountId ∧ accountId < range.1 + range.2 ∧ range.1 + range.2 < 2 ^ 64 := by
  obtain ⟨x, hx, hsome⟩ := List.exists_of_findSome?_eq_some h
  obtain ⟨⟨hstart, hend⟩, hsome⟩ := Option.ite_none_right_eq_some.mp hsome
  obtain rfl := Option.some.inj hsome
  have hlt := hcount x hx
  have hbelow : x.2.1 + x.2.2 < 2 ^ 64 := by
    by_contra hge
    -- the end has wrapped around, and is below the start
    omega
  rw [Nat.mod_eq_of_lt hbelow] at hend
  exact ⟨x.2, OrdMap.get_of_mem hx, hstart, hend, hbelow⟩

theorem homeValidator_eq_some_iff {accountRanges : OrdMap PublicKey (ℕ × ℕ)}
    (hcount : ∀ x ∈ accountRanges.entries, x.2.2 < 2 ^ 64)
    (hdisjoint : RangesDisjoint accountRanges) {accountId : ℕ} {client : PublicKey} :
    homeValidator accountRanges accountId = some client ↔
      ∃ range, accountRanges.get client = some range ∧
        range.1 ≤ accountId ∧ accountId < range.1 + range.2 ∧ range.1 + range.2 < 2 ^ 64 := by
  refine ⟨range_of_homeValidator hcount, ?_⟩
  rintro ⟨range, hget, hstart, hend, hbelow⟩
  have hsome : (homeValidator accountRanges accountId).isSome = true := by
    refine List.findSome?_isSome_iff.mpr ⟨(client, range), OrdMap.get_eq_some_iff.mp hget, ?_⟩
    rw [if_pos ⟨hstart, by rwa [Nat.mod_eq_of_lt hbelow]⟩]
    rfl
  obtain ⟨client', hclient'⟩ := Option.isSome_iff_exists.mp hsome
  obtain ⟨range', hget', hstart', hend', -⟩ := range_of_homeValidator hcount hclient'
  have heq : client' = client :=
    hdisjoint _ _ _ ⟨range', hget', hstart', hend'⟩ ⟨range, hget, hstart, hend⟩
  rw [hclient', heq]

omit [LinearOrder Digest] in
/-- The notices about an account that a client gets from a worker: all or none. -/
theorem about_received {v : Validator} {f : Forwarding PublicKey}
    {sent : List (List (ℕ × PrimaryWorkerMessage PublicKey Digest))}
    {notices : List (MigrationNotice PublicKey)}
    (hstream : ∀ worker, (streamTo worker sent.flatten).flatMap PrimaryWorkerMessage.notices =
      if worker ∈ v.ourWorkers then
        notices.filter fun notice => u32 (notice.accountId % v.ourWorkers.length) = worker
      else [])
    (accountId worker : ℕ) (client : PublicKey) :
    about accountId (received f sent worker client) =
      if client ∈ f.committee.keys ∧ worker ∈ v.ourWorkers ∧
          u32 (accountId % v.ourWorkers.length) = worker ∧
          homeValidator f.accountRanges accountId = some client then
        about accountId notices
      else [] := by
  rw [received_eq, hstream]
  by_cases hclient : client ∈ f.committee.keys
  · by_cases hworker : worker ∈ v.ourWorkers
    · simp only [hclient, hworker, if_true, true_and, about, List.filter_filter]
      split
      · rename_i h
        refine List.filter_congr fun notice _ => ?_
        by_cases ha : notice.accountId = accountId
        · simp [ha, h.1, h.2]
        · simp [ha]
      · rename_i h
        rw [List.filter_eq_nil_iff]
        intro notice _ htrue
        simp only [Bool.and_eq_true, decide_eq_true_eq] at htrue
        obtain ⟨rfl, hhome, hw⟩ := htrue
        exact h ⟨hw, hhome⟩
    · simp [hworker, about]
  · simp [hclient, about]

omit [LinearOrder PublicKey] in
theorem mem_about {notice : MigrationNotice PublicKey} {notices : List (MigrationNotice PublicKey)}
    (h : notice ∈ notices) : notice ∈ about notice.accountId notices :=
  List.mem_filter.mpr ⟨h, decide_eq_true rfl⟩

/-- However many notices there are, they are delivered exactly once if and only if the
    accounts of all of them get through. -/
theorem exactlyOnce_iff (v : Validator) (f : Forwarding PublicKey)
    (lists : List (List (MigrationNotice PublicKey))) (hworkers : v.ourWorkers ≠ [])
    (hcount : ∀ x ∈ f.accountRanges.entries, x.2.2 < 2 ^ 64)
    (hdisjoint : RangesDisjoint f.accountRanges)
    (hcover : ∀ notice ∈ lists.flatten,
      ∃ validator, HasAccount f.accountRanges validator notice.accountId) :
    ∃ sent : List (List (ℕ × PrimaryWorkerMessage PublicKey Digest)),
      analyze v (lists.map (.migrations : _ → ConsensusOutput PublicKey Digest Signature)) =
          some sent ∧
        (ExactlyOnce f.accountRanges lists.flatten (received f sent) ↔
          ∀ notice ∈ lists.flatten, GetsThrough v f notice.accountId) := by
  obtain ⟨sent, hsent, hstream⟩ :=
    analyzeFrom_migrations Digest Signature hworkers 0 0 lists
  refine ⟨sent, hsent, ?_, ?_⟩
  · rintro ⟨through, hthrough⟩ notice hnotice
    obtain ⟨client, hclient⟩ := hcover notice hnotice
    have hall := (hthrough notice.accountId (through notice.accountId) client).1 ⟨rfl, hclient⟩
    have hmem := mem_about hnotice
    rw [← hall, about_received hstream] at hmem
    split at hmem
    · rename_i h
      obtain ⟨hknown, hworker, hw, hhome⟩ := h
      exact ⟨hw ▸ hworker, client, hknown, range_of_homeValidator hcount hhome⟩
    · exact absurd hmem List.not_mem_nil
  · intro hall
    refine ⟨fun accountId => u32 (accountId % v.ourWorkers.length), ?_⟩
    intro accountId worker client
    rw [about_received hstream]
    constructor
    · rintro ⟨rfl, hhas⟩
      split
      · rfl
      · rename_i hnot
        -- a notice about the account would get through to this client
        refine (List.filter_eq_nil_iff.mpr fun notice hnotice ha => hnot ?_).symm
        obtain rfl := of_decide_eq_true ha
        obtain ⟨hworker, client', hknown, range, hrange⟩ := hall notice hnotice
        obtain rfl := hdisjoint _ _ _ ⟨range, hrange.1, hrange.2.1, hrange.2.2.1⟩ hhas
        exact ⟨hknown, hworker, rfl,
          (homeValidator_eq_some_iff hcount hdisjoint).mpr ⟨range, hrange⟩⟩
    · intro hnot
      rw [if_neg]
      rintro ⟨-, -, hw, hhome⟩
      obtain ⟨range, hget, hstart, hend, -⟩ := range_of_homeValidator hcount hhome
      exact hnot ⟨hw.symm, range, hget, hstart, hend⟩

end

section Sample

namespace NoticeSample

/-- Two validators with two accounts each. -/
def accountRanges : OrdMap ℕ (ℕ × ℕ) := ⟨[(0, (0, 2)), (1, (2, 2))], by decide⟩

def forwarding : Forwarding ℕ where
  name := 0
  committee := ⟨⟨[(0, ⟨1, [0]⟩), (1, ⟨1, [0]⟩)], by decide⟩⟩
  accountRanges := accountRanges
  order _ _ l := l
  order_perm _ _ l := List.Perm.refl l

/-- A validator with these workers. -/
def validator (ourWorkers : List ℕ) (h : ourWorkers.Nodup) : Validator :=
  ⟨ourWorkers, h, fun _ l => l, fun _ l => List.Perm.refl l⟩

def notices : List (MigrationNotice ℕ) := [⟨0, 1⟩, ⟨3, 0⟩, ⟨0, 0⟩]

theorem get_accountRanges {client : ℕ} {range : ℕ × ℕ}
    (h : accountRanges.get client = some range) : client < 2 ∧ range = (2 * client, 2) := by
  have hmem := OrdMap.get_eq_some_iff.mp h
  simp only [accountRanges, List.mem_cons, Prod.mk.injEq, List.not_mem_nil, or_false] at hmem
  obtain ⟨rfl, rfl⟩ | ⟨rfl, rfl⟩ := hmem
  · exact ⟨by decide, rfl⟩
  · exact ⟨by decide, rfl⟩

theorem rangesDisjoint : RangesDisjoint accountRanges := by
  rintro client client' accountId ⟨range, hget, hstart, hend⟩ ⟨range', hget', hstart', hend'⟩
  obtain ⟨-, rfl⟩ := get_accountRanges hget
  obtain ⟨-, rfl⟩ := get_accountRanges hget'
  simp only at hstart hend hstart' hend'
  omega

theorem hasAccount {notices : List (MigrationNotice ℕ)}
    (h : ∀ notice ∈ notices, notice.accountId < 4) :
    ∀ notice ∈ notices, ∃ client, HasAccount accountRanges client notice.accountId := by
  intro notice hnotice
  have hlt := h notice hnotice
  by_cases h2 : notice.accountId < 2
  · exact ⟨0, (0, 2), by decide, by simp, by simpa using h2⟩
  · exact ⟨1, (2, 2), by decide, Nat.le_of_not_lt h2, by simpa using hlt⟩

end NoticeSample

open NoticeSample

theorem exactlyOnce_iff_sample :
    ∃ sent : List (List (ℕ × PrimaryWorkerMessage ℕ ℕ)),
      analyze (validator [0, 1] (by decide))
          ([notices].map (.migrations : _ → ConsensusOutput ℕ ℕ Unit)) = some sent ∧
        (ExactlyOnce accountRanges [notices].flatten (received forwarding sent) ↔
          ∀ notice ∈ [notices].flatten,
            GetsThrough (validator [0, 1] (by decide)) forwarding notice.accountId) :=
  exactlyOnce_iff (validator [0, 1] (by decide)) forwarding [notices] (by decide) (by decide)
    rangesDisjoint (hasAccount (by decide))

/-- A single worker with id 1 gets no notices: they are numbered for worker 0. -/
theorem not_exactlyOnce :
    ¬ ∀ (v : Validator) (f : Forwarding ℕ) (notices : List (MigrationNotice ℕ)),
        v.ourWorkers ≠ [] → (∀ x ∈ f.accountRanges.entries, x.2.2 < 2 ^ 64) →
        RangesDisjoint f.accountRanges →
        (∀ notice ∈ notices, ∃ client, HasAccount f.accountRanges client notice.accountId) →
        ∀ sent : List (List (ℕ × PrimaryWorkerMessage ℕ ℕ)),
          analyze v [(.migrations notices : ConsensusOutput ℕ ℕ Unit)] = some sent →
            ExactlyOnce f.accountRanges notices (received f sent) := by
  intro h
  let v := validator [1] (by decide)
  have hsent : analyze v [(.migrations [⟨0, 1⟩] : ConsensusOutput ℕ ℕ Unit)] = some [[]] := rfl
  obtain ⟨through, hthrough⟩ := h v forwarding [⟨0, 1⟩] (by decide) (by decide) rangesDisjoint
    (hasAccount (by decide)) [[]] hsent
  have hall := (hthrough 0 (through 0) 0).1 ⟨rfl, (0, 2), by decide, by decide, by decide⟩
  have hnil : ([] : List (MigrationNotice ℕ)) = [⟨0, 1⟩] := hall
  exact absurd hnil (by decide)

end Sample

end DagBft.Node
