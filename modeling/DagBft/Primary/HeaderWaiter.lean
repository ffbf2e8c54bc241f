/-
  The task that keeps the headers with missing parents or batches
  (`primary/src/header_waiter.rs`).

  A future of `waiting` ends when all of its keys are in the storage, or when the cleanup has
  cancelled it; where it has both, either may come first. The networking addresses are left
  out: a request names the worker or the authority that it goes to.

  `batchSyncs_survive`: while no cleanup comes across an old header that is suspended on
  batches, every such header stays pending until its batches have arrived and is looped back
  once, and no request outlives the headers that wait for it.
  `not_batchSyncs_survive`: the flag that would keep the cleanup from these headers is never
  set.
-/
import DagBft.Lib.HashMap
import DagBft.Lib.Runs
import DagBft.Primary.Core

namespace DagBft

/-- The requests that are sent to the network. -/
inductive SyncRequest (PublicKey Digest : Type)
  /-- To a worker of ours: get batches from the worker of an authority. -/
  | synchronize (workerId : ℕ) (digests : List Digest) (author : PublicKey)
  /-- To the primary of an authority, or to some of the others. -/
  | certificatesRequest (receiver : Option PublicKey) (digests : List Digest)

variable (PublicKey Digest Signature : Type) [LinearOrder Digest]

/-- `SyncBatches`: the missing batches are of the payload of the header. They are listed in
    the order in which the map is iterated over. -/
structure SyncBatches where
  missing : List (Digest × ℕ)
  header : Header PublicKey Digest Signature
  nodup : (missing.map Prod.fst).Nodup
  subset : missing ⊆ header.payload.entries

/-- A future of `waiting`. -/
structure Waiter where
  missing : List (StoreKey Digest)
  deliver : Header PublicKey Digest Signature
  /-- The channel that cancels it. Channels are numbered as they are made. -/
  handler : ℕ
  /-- Whether the cleanup has sent on the channel. -/
  cancelled : Bool
  /-- Whether it waits for batches. The code does not keep this. -/
  isBatchSync : Bool
deriving DecidableEq

structure HeaderWaiter where
  store : Finset (StoreKey Digest)
  /-- The current consensus round (used for cleanup). -/
  consensusRound : ℕ
  /-- The certificates for which we sent a sync request, and when. -/
  parentRequests : HashMap Digest (ℕ × ℕ)
  /-- The batches for which we sent a sync request. -/
  batchRequests : HashMap Digest ℕ
  /-- The headers that are waiting to be processed: the round, the channel that cancels the
      waiter, and whether this is a batch sync. -/
  pending : HashMap Digest (ℕ × ℕ × Bool)
  waiting : List (Waiter PublicKey Digest Signature)
  /-- The number of channels made. -/
  handlers : ℕ
  sent : List (SyncRequest PublicKey Digest)
  /-- The headers looped back to the core, with the channels of their waiters. -/
  delivered : List (ℕ × Header PublicKey Digest Signature)
  /-- All waiters for batches that were ever made. The code does not keep them. -/
  suspended : List (Waiter PublicKey Digest Signature)

inductive WaiterEvent
  | syncBatches (message : SyncBatches PublicKey Digest Signature)
  | syncParents (missing : List Digest) (header : Header PublicKey Digest Signature) (now : ℕ)
  /-- A waiter has found all of its keys. -/
  | complete (handler : ℕ)
  /-- A waiter has been cancelled. -/
  | cancelled (handler : ℕ)
  | timer (now : ℕ)
  /-- Another task writes to the storage. -/
  | arrive (key : StoreKey Digest)
  /-- Another task updates the consensus round. -/
  | advance (round : ℕ)

variable {PublicKey Digest Signature}

namespace HeaderWaiter

def initial (store : Finset (StoreKey Digest)) : HeaderWaiter PublicKey Digest Signature where
  store := store
  consensusRound := 0
  parentRequests := ∅
  batchRequests := ∅
  pending := ∅
  waiting := []
  handlers := 0
  sent := []
  delivered := []
  suspended := []

variable (s : HeaderWaiter PublicKey Digest Signature)

/-- Add a header to the waiter pool. -/
def suspend (keys : List (StoreKey Digest)) (header : Header PublicKey Digest Signature)
    (isBatchSync : Bool) : HeaderWaiter PublicKey Digest Signature :=
  let waiter : Waiter PublicKey Digest Signature := ⟨keys, header, s.handlers, false, isBatchSync⟩
  { s with
    -- `false`, whichever sync it is
    pending := s.pending.insert header.id (header.round, s.handlers, false)
    waiting := s.waiting ++ [waiter]
    handlers := s.handlers + 1
    suspended := if isBatchSync then s.suspended ++ [waiter] else s.suspended }

/-- `entry(digest).or_insert_with(..)` for each missing digest, and the digests for which
    there was no request yet. -/
def newRequests {V : Type} (requests : HashMap Digest V) (value : V) (missing : List Digest) :
    HashMap Digest V × List Digest :=
  missing.foldl (fun acc digest =>
    if digest ∈ acc.1 then acc else (acc.1.insert digest value, acc.2 ++ [digest])) (requests, [])

/-- The requests for batches, one message to each worker. -/
def requestBatches (missing : List (Digest × ℕ)) (header : Header PublicKey Digest Signature) :
    HeaderWaiter PublicKey Digest Signature :=
  let (batchRequests, new) := newRequests s.batchRequests header.round (missing.map Prod.fst)
  let requiresSync := missing.filter fun x => x.1 ∈ new
  { s with
    batchRequests := batchRequests
    sent := s.sent ++ (requiresSync.map Prod.snd).dedup.map fun workerId =>
      .synchronize workerId ((requiresSync.filter fun x => x.2 = workerId).map Prod.fst)
        header.author }

/-- The request for parents, to the author of the header. -/
def requestParents (missing : List Digest) (header : Header PublicKey Digest Signature)
    (now : ℕ) : HeaderWaiter PublicKey Digest Signature :=
  let (parentRequests, requiresSync) := newRequests s.parentRequests (header.round, now) missing
  { s with
    parentRequests := parentRequests
    sent := if requiresSync = [] then s.sent
      else s.sent ++ [.certificatesRequest (some header.author) requiresSync] }

/-- A waiter has found all of its keys: the header goes back to the core. -/
def finish (w : Waiter PublicKey Digest Signature) : HeaderWaiter PublicKey Digest Signature :=
  { s with
    pending := s.pending.erase w.deliver.id
    batchRequests := HashMap.retain s.batchRequests (· ∉ w.deliver.payload.keys)
    parentRequests := HashMap.retain s.parentRequests (· ∉ w.deliver.parents)
    waiting := s.waiting.filter fun x => x.handler ≠ w.handler
    delivered := s.delivered ++ [(w.handler, w.deliver)] }

/-- The certificates whose requests are due again. -/
def retry (syncRetryDelay now : ℕ) : List Digest :=
  sorted (· ≤ ·) (HashMap.filter s.parentRequests fun _ x => x.2 + syncRetryDelay < now).keys.val

/-- What is done on an event, and whether the cleanup follows: it does after each iteration
    of the loop, except where the loop goes on with `continue`. -/
def arm (syncRetryDelay : ℕ) : WaiterEvent PublicKey Digest Signature →
    Option (HeaderWaiter PublicKey Digest Signature × Bool)
  | .syncBatches message =>
      -- Ensure we sync only once per header.
      if message.header.id ∈ s.pending then some (s, false)
      else some ((s.suspend (message.missing.map fun x => .payload x.1 x.2) message.header
        true).requestBatches message.missing message.header, true)
  | .syncParents missing header now =>
      if header.id ∈ s.pending then some (s, false)
      else some ((s.suspend (missing.map .digest) header false).requestParents missing
        header now, true)
  | .complete handler => (s.waiting.find? fun w => w.handler = handler).bind fun w =>
      if ∀ k ∈ w.missing, k ∈ s.store then some (s.finish w, true) else none
  | .cancelled handler => (s.waiting.find? fun w => w.handler = handler).bind fun w =>
      if w.cancelled then
        some ({ s with waiting := s.waiting.filter fun x => x.handler ≠ handler }, true)
      else none
  | .timer now =>
      some ({ s with
        sent := s.sent ++ [.certificatesRequest none (s.retry syncRetryDelay now)] }, true)
  | .arrive key => some ({ s with store := insert key s.store }, false)
  | .advance round => some ({ s with consensusRound := round }, false)

/-- Whether the cleanup cancels the waiter of an entry of `pending`. -/
def Stale (gcRound : ℕ) (entry : ℕ × ℕ × Bool) : Prop := entry.1 ≤ gcRound ∧ entry.2.2 = false

instance (gcRound : ℕ) : DecidablePred (Stale gcRound) := fun entry =>
  inferInstanceAs (Decidable (entry.1 ≤ gcRound ∧ entry.2.2 = false))

/-- The cleanup sends on a channel. -/
def Cancels (gcRound handler : ℕ) : Prop :=
  ∃ x ∈ s.pending.entries, Stale gcRound x.2 ∧ x.2.2.1 = handler

instance (gcRound handler : ℕ) : Decidable (s.Cancels gcRound handler) :=
  Multiset.decidableExistsMultiset (m := s.pending.entries)
    (p := fun x : (_ : Digest) × ℕ × ℕ × Bool => Stale gcRound x.2 ∧ x.2.2.1 = handler)

/-- Cleanup internal state. -/
def cleanup (gcDepth : ℕ) : HeaderWaiter PublicKey Digest Signature :=
  if gcDepth < s.consensusRound then
    let gcRound := s.consensusRound - gcDepth
    { s with
      waiting := s.waiting.map fun w =>
        if s.Cancels gcRound w.handler then { w with cancelled := true } else w
      pending := HashMap.filter s.pending fun _ entry => ¬ Stale gcRound entry
      parentRequests := HashMap.filter s.parentRequests fun _ x => gcRound < x.1 }
  else s

/-- `none` where the event cannot happen. -/
def step (gcDepth syncRetryDelay : ℕ) (e : WaiterEvent PublicKey Digest Signature) :
    Option (HeaderWaiter PublicKey Digest Signature) :=
  (s.arm syncRetryDelay e).map fun x => if x.2 then x.1.cleanup gcDepth else x.1

/-! ## Requests for batches -/

section Requests

variable {V : Type} {requests : HashMap Digest V} {value : V} {missing : List Digest} {d : Digest}

/-- A loop of `or_insert_with` leaves the old keys and adds the missing ones. -/
theorem newRequests_spec :
    (d ∈ (newRequests requests value missing).1 ↔ d ∈ requests ∨ d ∈ missing) ∧
    (d ∈ (newRequests requests value missing).2 ↔ d ∉ requests ∧ d ∈ missing) := by
  have key : ∀ (acc : HashMap Digest V × List Digest),
      (d ∈ (missing.foldl (fun acc digest => if digest ∈ acc.1 then acc
          else (acc.1.insert digest value, acc.2 ++ [digest])) acc).1 ↔
        d ∈ acc.1 ∨ d ∈ missing) ∧
      (d ∈ (missing.foldl (fun acc digest => if digest ∈ acc.1 then acc
          else (acc.1.insert digest value, acc.2 ++ [digest])) acc).2 ↔
        d ∈ acc.2 ∨ d ∉ acc.1 ∧ d ∈ missing) := by
    induction missing with
    | nil => simp
    | cons x missing ih =>
        intro acc
        rw [List.foldl_cons]
        by_cases hx : x ∈ acc.1
        · rw [if_pos hx, (ih acc).1, (ih acc).2]
          constructor
          · by_cases hd : d = x
            · subst hd
              simp [hx]
            · simp [hd]
          · by_cases hd : d = x
            · subst hd
              simp [hx]
            · simp [hd]
        · rw [if_neg hx, (ih _).1, (ih _).2]
          constructor
          · simp only [Finmap.mem_insert, List.mem_cons]
            tauto
          · by_cases hd : d = x
            · subst hd
              simp [hx]
            · simp [hd]
  have := key (requests, [])
  simpa [newRequests] using this

end Requests

/-! ## The invariant -/

/-- What the waiters for batches are waiting for is in their headers, and their headers are
    pending under their own channels. -/
structure Tracked (s : HeaderWaiter PublicKey Digest Signature) : Prop where
  nodup : (s.waiting.map Waiter.handler).Nodup
  lt : ∀ w ∈ s.waiting, w.handler < s.handlers
  /-- An entry of `pending` has a waiter, which was not cancelled. -/
  entry : ∀ id r h flag, s.pending.lookup id = some (r, h, flag) → ∃ w ∈ s.waiting,
    w.handler = h ∧ w.deliver.id = id ∧ w.deliver.round = r ∧ w.cancelled = false
  batchSync : ∀ w ∈ s.waiting, w.isBatchSync = true →
    s.pending.lookup w.deliver.id = some (w.deliver.round, w.handler, false) ∧
      w.cancelled = false ∧
      (∀ w' ∈ s.waiting, w'.deliver.id = w.deliver.id → w' = w) ∧
      ∀ k ∈ w.missing, ∃ d v, k = .payload d v ∧ d ∈ w.deliver.payload.keys
  batchRequests : ∀ d ∈ s.batchRequests, ∃ w ∈ s.waiting, w.isBatchSync = true ∧
    ∃ v, .payload d v ∈ w.missing

/-- A header that was suspended on batches is waiting, or has been looped back once. -/
structure LoopedBack (s : HeaderWaiter PublicKey Digest Signature) : Prop where
  isBatchSync : ∀ w ∈ s.suspended, w.isBatchSync = true
  waiting : ∀ w ∈ s.waiting, w.isBatchSync = true → w ∈ s.suspended
  delivered : ∀ x ∈ s.delivered, x.1 < s.handlers
  once : ∀ w ∈ s.suspended,
    (w ∈ s.waiting ∧ (s.delivered.map Prod.fst).count w.handler = 0) ∨
    ((∀ x ∈ s.waiting, x.handler ≠ w.handler) ∧ w.handler < s.handlers ∧
      (s.delivered.map Prod.fst).count w.handler = 1 ∧ ∀ k ∈ w.missing, k ∈ s.store)

section Steps

variable {s s' : HeaderWaiter PublicKey Digest Signature} {w w' : Waiter PublicKey Digest Signature}
  {header : Header PublicKey Digest Signature} {keys : List (StoreKey Digest)} {gcDepth : ℕ}

theorem Tracked.inj (h : Tracked s) (hw : w ∈ s.waiting) (hw' : w' ∈ s.waiting)
    (he : w.handler = w'.handler) : w = w' :=
  List.inj_on_of_nodup_map h.nodup hw hw' he

theorem mem_of_lookup {id : Digest} {x : ℕ × ℕ × Bool} (h : s.pending.lookup id = some x) :
    id ∈ s.pending := by
  rw [← Finmap.lookup_isSome, h]
  rfl

theorem mem_retain {V : Type} {m : HashMap Digest V} {p : Digest → Prop} [DecidablePred p]
    {d : Digest} : d ∈ HashMap.retain m p ↔ d ∈ m ∧ p d := by
  rw [← Finmap.lookup_isSome, HashMap.lookup_retain, ← Finmap.lookup_isSome]
  split
  · rename_i hp
    exact (and_iff_left hp).symm
  · rename_i hp
    simp [hp]

theorem Tracked.suspend {isBatchSync : Bool} (h : Tracked s) (hid : header.id ∉ s.pending)
    (hbatch : isBatchSync = true → (∀ w ∈ s.waiting, w.deliver.id ≠ header.id) ∧
      ∀ k ∈ keys, ∃ d v, k = .payload d v ∧ d ∈ header.payload.keys) :
    Tracked (s.suspend keys header isBatchSync) := by
  have hne : ∀ id x, s.pending.lookup id = some x → id ≠ header.id := by
    rintro id x hx rfl
    exact hid (mem_of_lookup hx)
  refine ⟨?_, ?_, ?_, ?_, ?_⟩
  · unfold HeaderWaiter.suspend
    rw [List.map_append, List.nodup_append]
    refine ⟨h.nodup, List.nodup_singleton _, fun a ha b hb => ?_⟩
    obtain ⟨w, hw, rfl⟩ := List.mem_map.mp ha
    rw [List.mem_singleton.mp hb]
    exact (h.lt w hw).ne
  · intro w hw
    rcases List.mem_append.mp hw with hw | hw
    · exact (h.lt w hw).trans (Nat.lt_succ_self _)
    · rw [List.mem_singleton.mp hw]
      exact Nat.lt_succ_self _
  · intro id r handler flag hl
    unfold HeaderWaiter.suspend at hl ⊢
    dsimp only at hl ⊢
    rw [HashMap.lookup_insert_eq] at hl
    split at hl
    · rename_i hidd
      obtain ⟨rfl, hrest⟩ := Prod.mk.inj (Option.some.inj hl)
      obtain ⟨rfl, rfl⟩ := Prod.mk.inj hrest
      exact ⟨_, List.mem_append_right _ (List.mem_singleton_self _), rfl, hidd.symm, rfl, rfl⟩
    · obtain ⟨w, hw, hrest⟩ := h.entry id r handler flag hl
      exact ⟨w, List.mem_append_left _ hw, hrest⟩
  · intro w hw hb
    unfold HeaderWaiter.suspend
    dsimp only
    rw [HashMap.lookup_insert_eq]
    rcases List.mem_append.mp hw with hw | hw
    · obtain ⟨hl, hc, hunique, hmissing⟩ := h.batchSync w hw hb
      rw [if_neg (hne _ _ hl)]
      refine ⟨hl, hc, fun w' hw' hid' => ?_, hmissing⟩
      rcases List.mem_append.mp hw' with hw' | hw'
      · exact hunique w' hw' hid'
      · rw [List.mem_singleton.mp hw'] at hid'
        exact absurd hid'.symm (hne _ _ hl)
    · obtain rfl := List.mem_singleton.mp hw
      obtain ⟨hnew, hkeys⟩ := hbatch hb
      rw [if_pos rfl]
      refine ⟨rfl, rfl, fun w' hw' hid' => ?_, hkeys⟩
      rcases List.mem_append.mp hw' with hw' | hw'
      · exact absurd hid' (hnew w' hw')
      · exact List.mem_singleton.mp hw'
  · intro d hd
    obtain ⟨w, hw, hrest⟩ := h.batchRequests d hd
    exact ⟨w, List.mem_append_left _ hw, hrest⟩

theorem Tracked.requestBatches {missing : List (Digest × ℕ)} (h : Tracked s)
    (hmissing : ∀ x ∈ missing, ∃ w ∈ s.waiting, w.isBatchSync = true ∧
      ∃ v, .payload x.1 v ∈ w.missing) : Tracked (s.requestBatches missing header) := by
  refine ⟨h.nodup, h.lt, h.entry, h.batchSync, fun d hd => ?_⟩
  rcases newRequests_spec.1.mp hd with hd | hd
  · exact h.batchRequests d hd
  · obtain ⟨x, hx, rfl⟩ := List.mem_map.mp hd
    exact hmissing x hx

theorem Tracked.requestParents {missing : List Digest} {now : ℕ} (h : Tracked s) :
    Tracked (s.requestParents missing header now) :=
  ⟨h.nodup, h.lt, h.entry, h.batchSync, h.batchRequests⟩

theorem mem_filter_handler : w ∈ s.waiting.filter (fun x => x.handler ≠ w'.handler) ↔
    w ∈ s.waiting ∧ w.handler ≠ w'.handler := by
  rw [List.mem_filter, decide_eq_true_eq]

/-- No other header loses its request. -/
theorem Tracked.finish (h : Tracked s) (hw₀ : w' ∈ s.waiting) : Tracked (s.finish w') where
  nodup := h.nodup.sublist (List.filter_sublist.map _)
  lt w hw := h.lt w (mem_filter_handler.mp hw).1
  entry id r handler flag hl := by
    unfold HeaderWaiter.finish at hl ⊢
    by_cases hid : id = w'.deliver.id
    · rw [hid, Finmap.lookup_erase] at hl
      cases hl
    · rw [Finmap.lookup_erase_ne hid] at hl
      obtain ⟨w, hw, hh, hwid, hrest⟩ := h.entry id r handler flag hl
      refine ⟨w, mem_filter_handler.mpr ⟨hw, fun he => hid ?_⟩, hh, hwid, hrest⟩
      rw [← hwid, h.inj hw hw₀ he]
  batchSync w hw hb := by
    obtain ⟨hw, hne⟩ := mem_filter_handler.mp hw
    obtain ⟨hl, hc, hunique, hmissing⟩ := h.batchSync w hw hb
    unfold HeaderWaiter.finish
    rw [Finmap.lookup_erase_ne]
    · exact ⟨hl, hc, fun x hx => hunique x (mem_filter_handler.mp hx).1, hmissing⟩
    · intro hid
      exact hne (congrArg Waiter.handler (hunique w' hw₀ hid.symm)).symm
  batchRequests d hd := by
    obtain ⟨hd, hkeys⟩ := mem_retain.mp hd
    obtain ⟨w, hw, hb, v, hv⟩ := h.batchRequests d hd
    refine ⟨w, mem_filter_handler.mpr ⟨hw, fun he => hkeys ?_⟩, hb, v, hv⟩
    -- what the finished header was waiting for is in its payload
    obtain ⟨-, -, -, hmissing⟩ := h.batchSync w hw hb
    obtain ⟨d', v', hk, hd'⟩ := hmissing _ hv
    obtain ⟨rfl, -⟩ := StoreKey.payload.inj hk
    rwa [← h.inj hw hw₀ he]

theorem Tracked.drop (h : Tracked s) (hw₀ : w' ∈ s.waiting) (hc : w'.cancelled = true) :
    Tracked { s with waiting := s.waiting.filter fun x => x.handler ≠ w'.handler } where
  nodup := h.nodup.sublist (List.filter_sublist.map _)
  lt w hw := h.lt w (mem_filter_handler.mp hw).1
  entry id r handler flag hl := by
    obtain ⟨w, hw, hh, hwid, hr, hwc⟩ := h.entry id r handler flag hl
    refine ⟨w, mem_filter_handler.mpr ⟨hw, fun he => ?_⟩, hh, hwid, hr, hwc⟩
    rw [h.inj hw hw₀ he, hc] at hwc
    cases hwc
  batchSync w hw hb := by
    obtain ⟨hl, hwc, hunique, hmissing⟩ := h.batchSync w (mem_filter_handler.mp hw).1 hb
    exact ⟨hl, hwc, fun x hx => hunique x (mem_filter_handler.mp hx).1, hmissing⟩
  batchRequests d hd := by
    obtain ⟨w, hw, hb, hv⟩ := h.batchRequests d hd
    refine ⟨w, mem_filter_handler.mpr ⟨hw, fun he => ?_⟩, hb, hv⟩
    have hwc := (h.batchSync w hw hb).2.1
    rw [h.inj hw hw₀ he, hc] at hwc
    cases hwc

/-- No header that is suspended on batches is old. -/
def NoneOld (gcDepth : ℕ) (s : HeaderWaiter PublicKey Digest Signature) : Prop :=
  ∀ w ∈ s.waiting, w.isBatchSync = true → gcDepth < s.consensusRound →
    s.consensusRound - gcDepth < w.deliver.round

/-- The cleanup sends on the channel of an entry that it removes. -/
theorem Tracked.cancels {gcRound : ℕ} (h : Tracked s) (hw : w ∈ s.waiting)
    (hc : s.Cancels gcRound w.handler) : ∃ r flag, s.pending.lookup w.deliver.id =
      some (r, w.handler, flag) ∧ Stale gcRound (r, w.handler, flag) := by
  obtain ⟨⟨id, r, handler, flag⟩, hx, hstale, hh⟩ := hc
  dsimp only at hh
  subst hh
  have hl : s.pending.lookup id = some (r, w.handler, flag) := Finmap.lookup_eq_some_iff.mpr hx
  obtain ⟨x, hxw, hxh, hxid, -⟩ := h.entry id r _ flag hl
  obtain rfl := h.inj hxw hw hxh
  rw [hxid]
  exact ⟨r, flag, hl, hstale⟩

theorem Tracked.not_cancels (h : Tracked s) (hold : NoneOld gcDepth s) (hw : w ∈ s.waiting)
    (hb : w.isBatchSync = true) (hgc : gcDepth < s.consensusRound) :
    ¬ s.Cancels (s.consensusRound - gcDepth) w.handler := by
  intro hc
  obtain ⟨r, flag, hl, hstale, -⟩ := h.cancels hw hc
  rw [(h.batchSync w hw hb).1] at hl
  have hr := (Prod.mk.inj (Option.some.inj hl)).1
  have := hold w hw hb hgc
  dsimp only at hstale
  omega

theorem handler_ite {p : Prop} [Decidable p] :
    (if p then { w with cancelled := true } else w).handler = w.handler := by
  split <;> rfl

/-- The cleanup does not cancel a header that is suspended on batches. -/
theorem Tracked.cleanup (h : Tracked s) (hold : NoneOld gcDepth s) :
    Tracked (s.cleanup gcDepth) := by
  unfold HeaderWaiter.cleanup
  split
  swap
  · exact h
  rename_i hgc
  dsimp only
  refine ⟨?_, ?_, ?_, ?_, ?_⟩
  · rw [List.map_map]
    convert h.nodup using 2
    funext w
    exact handler_ite
  · intro w hw
    obtain ⟨x, hx, rfl⟩ := List.mem_map.mp hw
    rw [handler_ite]
    exact h.lt x hx
  · intro id r handler flag hl
    obtain ⟨hl, hstale⟩ := HashMap.lookup_filter_eq_some.mp hl
    obtain ⟨w, hw, rfl, rfl, hr, hwc⟩ := h.entry id r handler flag hl
    refine ⟨w, List.mem_map.mpr ⟨w, hw, if_neg fun hc => ?_⟩, rfl, rfl, hr, hwc⟩
    obtain ⟨r', flag', hl', hstale'⟩ := h.cancels hw hc
    rw [← Option.some.inj (hl.symm.trans hl')] at hstale'
    exact hstale hstale'
  · intro w hw hb
    obtain ⟨x, hx, rfl⟩ := List.mem_map.mp hw
    have hxb : x.isBatchSync = true := by
      split at hb <;> exact hb
    rw [if_neg (h.not_cancels hold hx hxb hgc)]
    obtain ⟨hl, hwc, hunique, hmissing⟩ := h.batchSync x hx hxb
    refine ⟨HashMap.lookup_filter_eq_some.mpr ⟨hl, fun hstale => ?_⟩, hwc, fun w' hw' hid => ?_,
      hmissing⟩
    · have := hold x hx hxb hgc
      have := hstale.1
      dsimp only at this
      omega
    · obtain ⟨x', hx', rfl⟩ := List.mem_map.mp hw'
      have hid' : x'.deliver.id = x.deliver.id := by
        split at hid <;> exact hid
      obtain rfl := hunique x' hx' hid'
      exact if_neg (h.not_cancels hold hx' hxb hgc)
  · intro d hd
    obtain ⟨w, hw, hb, hv⟩ := h.batchRequests d hd
    exact ⟨w, List.mem_map.mpr ⟨w, hw, if_neg (h.not_cancels hold hw hb hgc)⟩, hb, hv⟩

theorem LoopedBack.suspend {isBatchSync : Bool} (h : LoopedBack s) :
    LoopedBack (s.suspend keys header isBatchSync) := by
  have hold : ∀ w ∈ s.suspended,
      (w ∈ (s.suspend keys header isBatchSync).waiting ∧
        (s.delivered.map Prod.fst).count w.handler = 0) ∨
      ((∀ x ∈ (s.suspend keys header isBatchSync).waiting, x.handler ≠ w.handler) ∧
        w.handler < s.handlers + 1 ∧ (s.delivered.map Prod.fst).count w.handler = 1 ∧
        ∀ k ∈ w.missing, k ∈ s.store) := by
    intro w hw
    rcases h.once w hw with ⟨hmem, hcount⟩ | ⟨hmem, hlt, hcount, hstore⟩
    · exact Or.inl ⟨List.mem_append_left _ hmem, hcount⟩
    · refine Or.inr ⟨fun x hx => ?_, by omega, hcount, hstore⟩
      rcases List.mem_append.mp hx with hx | hx
      · exact hmem x hx
      · rw [List.mem_singleton.mp hx]
        exact hlt.ne'
  refine ⟨?_, ?_, fun x hx => (h.delivered x hx).trans (Nat.lt_succ_self _), ?_⟩
  · unfold HeaderWaiter.suspend
    dsimp only
    split
    · rename_i hb
      intro w hw
      rcases List.mem_append.mp hw with hw | hw
      · exact h.isBatchSync w hw
      · rw [List.mem_singleton.mp hw]
        exact hb
    · exact h.isBatchSync
  · intro w hw hb
    rcases List.mem_append.mp hw with hw | hw
    · have hmem := h.waiting w hw hb
      unfold HeaderWaiter.suspend
      dsimp only
      split
      · exact List.mem_append_left _ hmem
      · exact hmem
    · obtain rfl := List.mem_singleton.mp hw
      unfold HeaderWaiter.suspend
      dsimp only at hb ⊢
      rw [if_pos hb]
      exact List.mem_append_right _ (List.mem_singleton_self _)
  · intro w hw
    by_cases hb : isBatchSync = true
    · have hsus : (s.suspend keys header isBatchSync).suspended =
          s.suspended ++ [⟨keys, header, s.handlers, false, isBatchSync⟩] := if_pos hb
      rw [hsus] at hw
      rcases List.mem_append.mp hw with hw | hw
      · exact hold w hw
      · rw [List.mem_singleton.mp hw]
        refine Or.inl ⟨List.mem_append_right _ (List.mem_singleton_self _), ?_⟩
        rw [List.count_eq_zero]
        intro hmem
        obtain ⟨x, hx, hxh⟩ := List.mem_map.mp hmem
        exact (h.delivered x hx).ne hxh
    · have hsus : (s.suspend keys header isBatchSync).suspended = s.suspended := if_neg hb
      rw [hsus] at hw
      exact hold w hw

/-- The header goes back to the core for the first time. -/
theorem LoopedBack.finish (h : LoopedBack s) (ht : Tracked s) (hw₀ : w' ∈ s.waiting)
    (hstore : ∀ k ∈ w'.missing, k ∈ s.store) : LoopedBack (s.finish w') := by
  refine ⟨h.isBatchSync, fun w hw => h.waiting w (mem_filter_handler.mp hw).1, fun x hx => ?_,
    fun w hw => ?_⟩
  · rcases List.mem_append.mp hx with hx | hx
    · exact h.delivered x hx
    · rw [List.mem_singleton.mp hx]
      exact ht.lt w' hw₀
  · have hcount : ((s.finish w').delivered.map Prod.fst).count w.handler =
        (s.delivered.map Prod.fst).count w.handler + [w'.handler].count w.handler := by
      unfold HeaderWaiter.finish
      rw [List.map_append, List.count_append]
      rfl
    rw [hcount]
    by_cases he : w.handler = w'.handler
    · rw [he, List.count_singleton_self]
      rcases h.once w hw with ⟨hmem, hzero⟩ | ⟨hmem, -⟩
      · obtain rfl := ht.inj hmem hw₀ he
        refine Or.inr ⟨fun x hx => (mem_filter_handler.mp hx).2, ht.lt _ hw₀, ?_, hstore⟩
        rw [hzero]
      · exact absurd he.symm (hmem w' hw₀)
    · rw [List.count_singleton, if_neg (by simpa using Ne.symm he), Nat.add_zero]
      rcases h.once w hw with ⟨hmem, hzero⟩ | ⟨hmem, hrest⟩
      · exact Or.inl ⟨mem_filter_handler.mpr ⟨hmem, he⟩, hzero⟩
      · exact Or.inr ⟨fun x hx => hmem x (mem_filter_handler.mp hx).1, hrest⟩

theorem LoopedBack.drop (h : LoopedBack s) (ht : Tracked s) (hw₀ : w' ∈ s.waiting)
    (hc : w'.cancelled = true) :
    LoopedBack { s with waiting := s.waiting.filter fun x => x.handler ≠ w'.handler } := by
  refine ⟨h.isBatchSync, fun w hw => h.waiting w (mem_filter_handler.mp hw).1, h.delivered,
    fun w hw => ?_⟩
  rcases h.once w hw with ⟨hmem, hzero⟩ | ⟨hmem, hrest⟩
  · refine Or.inl ⟨mem_filter_handler.mpr ⟨hmem, fun he => ?_⟩, hzero⟩
    have hwc := (ht.batchSync w hmem (h.isBatchSync w hw)).2.1
    rw [ht.inj hmem hw₀ he, hc] at hwc
    cases hwc
  · exact Or.inr ⟨fun x hx => hmem x (mem_filter_handler.mp hx).1, hrest⟩

theorem LoopedBack.cleanup (h : LoopedBack s) (ht : Tracked s) (hold : NoneOld gcDepth s) :
    LoopedBack (s.cleanup gcDepth) := by
  unfold HeaderWaiter.cleanup
  split
  swap
  · exact h
  rename_i hgc
  refine ⟨h.isBatchSync, fun w hw hb => ?_, h.delivered, fun w hw => ?_⟩
  · obtain ⟨x, hx, rfl⟩ := List.mem_map.mp hw
    have hxb : x.isBatchSync = true := by
      split at hb <;> exact hb
    rw [if_neg (ht.not_cancels hold hx hxb hgc)]
    exact h.waiting x hx hxb
  rcases h.once w hw with ⟨hmem, hzero⟩ | ⟨hmem, hrest⟩
  · exact Or.inl ⟨List.mem_map.mpr
      ⟨w, hmem, if_neg (ht.not_cancels hold hmem (h.isBatchSync w hw) hgc)⟩, hzero⟩
  · refine Or.inr ⟨fun x hx => ?_, hrest⟩
    obtain ⟨y, hy, rfl⟩ := List.mem_map.mp hx
    rw [handler_ite]
    exact hmem y hy

end Steps

/-! ## Runs -/

section Runs

variable {gcDepth syncRetryDelay : ℕ} {s s' : HeaderWaiter PublicKey Digest Signature}
  {e : WaiterEvent PublicKey Digest Signature}

/-- When the cleanup runs, no header that is suspended on batches is as old as what it
    removes; and a header is suspended on batches when no waiter is left of the times that it
    was suspended before. -/
def Timely (gcDepth syncRetryDelay : ℕ) (s : HeaderWaiter PublicKey Digest Signature)
    (e : WaiterEvent PublicKey Digest Signature) : Prop :=
  (∀ s', s.arm syncRetryDelay e = some (s', true) → NoneOld gcDepth s') ∧
  ∀ message, e = .syncBatches message → message.header.id ∉ s.pending →
    ∀ w ∈ s.waiting, w.deliver.id ≠ message.header.id

/-- What an iteration does before the cleanup. -/
theorem arm_tracked {cleans : Bool} (ht : Tracked s) (hl : LoopedBack s)
    (hnew : ∀ message, e = .syncBatches message → message.header.id ∉ s.pending →
      ∀ w ∈ s.waiting, w.deliver.id ≠ message.header.id)
    (harm : s.arm syncRetryDelay e = some (s', cleans)) : Tracked s' ∧ LoopedBack s' := by
  have hfind : ∀ {handler w}, s.waiting.find? (fun w => w.handler = handler) = some w →
      w ∈ s.waiting ∧ w.handler = handler :=
    fun h => ⟨List.mem_of_find?_eq_some h, by simpa using List.find?_some h⟩
  cases e with
  | syncBatches message =>
      unfold arm at harm
      dsimp only at harm
      split at harm
      · obtain ⟨rfl, -⟩ := Prod.mk.inj (Option.some.inj harm)
        exact ⟨ht, hl⟩
      · rename_i hid
        obtain ⟨rfl, -⟩ := Prod.mk.inj (Option.some.inj harm)
        have htracked : Tracked (s.suspend (message.missing.map fun x => .payload x.1 x.2)
            message.header true) := by
          refine ht.suspend hid fun _ => ⟨hnew message rfl hid, fun k hk => ?_⟩
          obtain ⟨x, hx, rfl⟩ := List.mem_map.mp hk
          exact ⟨x.1, x.2, rfl, List.mem_map.mpr ⟨x, message.subset hx, rfl⟩⟩
        refine ⟨htracked.requestBatches fun x hx => ?_, ?_⟩
        · exact ⟨_, List.mem_append_right _ (List.mem_singleton_self _), rfl, x.2,
            List.mem_map.mpr ⟨x, hx, rfl⟩⟩
        · have hloop : LoopedBack (s.suspend (message.missing.map fun x => .payload x.1 x.2)
              message.header true) := hl.suspend
          exact ⟨hloop.isBatchSync, hloop.waiting, hloop.delivered, hloop.once⟩
  | syncParents missing header now =>
      unfold arm at harm
      dsimp only at harm
      split at harm
      · obtain ⟨rfl, -⟩ := Prod.mk.inj (Option.some.inj harm)
        exact ⟨ht, hl⟩
      · rename_i hid
        obtain ⟨rfl, -⟩ := Prod.mk.inj (Option.some.inj harm)
        have hloop : LoopedBack (s.suspend (missing.map .digest) header false) := hl.suspend
        exact ⟨(ht.suspend hid fun h => by cases h).requestParents,
          hloop.isBatchSync, hloop.waiting, hloop.delivered, hloop.once⟩
  | complete handler =>
      unfold arm at harm
      dsimp only at harm
      obtain ⟨w, hw, harm₁⟩ := Option.bind_eq_some_iff.mp harm
      obtain ⟨hmem, rfl⟩ := hfind hw
      split at harm₁
      · rename_i hstore
        obtain ⟨rfl, -⟩ := Prod.mk.inj (Option.some.inj harm₁)
        exact ⟨ht.finish hmem, hl.finish ht hmem hstore⟩
      · cases harm₁
  | cancelled handler =>
      unfold arm at harm
      dsimp only at harm
      obtain ⟨w, hw, harm₁⟩ := Option.bind_eq_some_iff.mp harm
      obtain ⟨hmem, rfl⟩ := hfind hw
      split at harm₁
      · rename_i hc
        obtain ⟨rfl, -⟩ := Prod.mk.inj (Option.some.inj harm₁)
        exact ⟨ht.drop hmem hc, hl.drop ht hmem hc⟩
      · cases harm₁
  | timer now =>
      obtain ⟨rfl, -⟩ := Prod.mk.inj (Option.some.inj harm)
      exact ⟨⟨ht.nodup, ht.lt, ht.entry, ht.batchSync, ht.batchRequests⟩,
        ⟨hl.isBatchSync, hl.waiting, hl.delivered, hl.once⟩⟩
  | arrive key =>
      obtain ⟨rfl, -⟩ := Prod.mk.inj (Option.some.inj harm)
      refine ⟨⟨ht.nodup, ht.lt, ht.entry, ht.batchSync, ht.batchRequests⟩,
        ⟨hl.isBatchSync, hl.waiting, hl.delivered, fun w hw => (hl.once w hw).imp_right ?_⟩⟩
      rintro ⟨hmem, hlt, hcount, hstore⟩
      exact ⟨hmem, hlt, hcount, fun k hk => Finset.mem_insert_of_mem (hstore k hk)⟩
  | advance round =>
      obtain ⟨rfl, -⟩ := Prod.mk.inj (Option.some.inj harm)
      exact ⟨⟨ht.nodup, ht.lt, ht.entry, ht.batchSync, ht.batchRequests⟩,
        ⟨hl.isBatchSync, hl.waiting, hl.delivered, hl.once⟩⟩

theorem step_tracked (ht : Tracked s) (hl : LoopedBack s)
    (htimely : Timely gcDepth syncRetryDelay s e)
    (hstep : s.step gcDepth syncRetryDelay e = some s') : Tracked s' ∧ LoopedBack s' := by
  obtain ⟨⟨s₁, cleans⟩, harm, rfl⟩ := Option.map_eq_some_iff.mp hstep
  obtain ⟨ht₁, hl₁⟩ := arm_tracked ht hl htimely.2 harm
  dsimp only
  split
  · rename_i hcleans
    subst hcleans
    have hold := htimely.1 s₁ harm
    exact ⟨ht₁.cleanup hold, hl₁.cleanup ht₁ hold⟩
  · exact ⟨ht₁, hl₁⟩

theorem tracked_initial (store : Finset (StoreKey Digest)) :
    Tracked (initial store : HeaderWaiter PublicKey Digest Signature) where
  nodup := List.nodup_nil
  lt w hw := by cases hw
  entry id r handler flag hl := by
    unfold initial at hl
    rw [Finmap.lookup_empty] at hl
    cases hl
  batchSync w hw := by cases hw
  batchRequests d hd := absurd hd Finmap.notMem_empty

theorem loopedBack_initial (store : Finset (StoreKey Digest)) :
    LoopedBack (initial store : HeaderWaiter PublicKey Digest Signature) where
  isBatchSync w hw := by cases hw
  waiting w hw := by cases hw
  delivered x hx := by cases hx
  once w hw := by cases hw

/-- The consensus round does not change where the cleanup follows. -/
theorem consensusRound_arm (harm : s.arm syncRetryDelay e = some (s', true)) :
    s'.consensusRound = s.consensusRound := by
  cases e with
  | syncBatches message =>
      unfold arm at harm
      dsimp only at harm
      split at harm
      · cases harm
      · obtain ⟨rfl, -⟩ := Prod.mk.inj (Option.some.inj harm)
        rfl
  | syncParents missing header now =>
      unfold arm at harm
      dsimp only at harm
      split at harm
      · cases harm
      · obtain ⟨rfl, -⟩ := Prod.mk.inj (Option.some.inj harm)
        rfl
  | complete handler =>
      obtain ⟨w, -, harm⟩ := Option.bind_eq_some_iff.mp harm
      split at harm
      · obtain ⟨rfl, -⟩ := Prod.mk.inj (Option.some.inj harm)
        rfl
      · cases harm
  | cancelled handler =>
      obtain ⟨w, -, harm⟩ := Option.bind_eq_some_iff.mp harm
      split at harm
      · obtain ⟨rfl, -⟩ := Prod.mk.inj (Option.some.inj harm)
        rfl
      · cases harm
  | timer now =>
      obtain ⟨rfl, -⟩ := Prod.mk.inj (Option.some.inj harm)
      rfl
  | arrive key => cases harm
  | advance round => cases harm

/-- Nothing is old before consensus has got as far as the garbage collection goes back. -/
theorem timely_of_young (hround : s.consensusRound ≤ gcDepth)
    (hnew : ∀ message, e = .syncBatches message → ∀ w ∈ s.waiting,
      w.deliver.id ≠ message.header.id) : Timely gcDepth syncRetryDelay s e := by
  refine ⟨fun s' harm w _ _ hgc => ?_, fun message he _ => hnew message he⟩
  rw [consensusRound_arm harm] at hgc
  omega

theorem sent_cleanup : (s.cleanup gcDepth).sent = s.sent := by
  unfold cleanup
  split <;> rfl

theorem delivered_cleanup : (s.cleanup gcDepth).delivered = s.delivered := by
  unfold cleanup
  split <;> rfl

/-- A missing batch without a request is requested when a header is suspended on it. -/
theorem requested {message : SyncBatches PublicKey Digest Signature}
    (hid : message.header.id ∉ s.pending)
    (hstep : s.step gcDepth syncRetryDelay (.syncBatches message) = some s') {x : Digest × ℕ}
    (hx : x ∈ message.missing) (hnew : x.1 ∉ s.batchRequests) :
    ∃ new, s'.sent = s.sent ++ new ∧
      ∃ digests, .synchronize x.2 digests message.header.author ∈ new ∧ x.1 ∈ digests := by
  obtain ⟨⟨s₁, cleans⟩, harm, rfl⟩ := Option.map_eq_some_iff.mp hstep
  unfold arm at harm
  dsimp only at harm
  rw [if_neg hid] at harm
  obtain ⟨rfl, rfl⟩ := Prod.mk.inj (Option.some.inj harm)
  dsimp only
  rw [if_pos rfl, sent_cleanup]
  unfold requestBatches
  refine ⟨_, rfl, _, List.mem_map.mpr ⟨x.2, ?_, rfl⟩, ?_⟩
  all_goals
    have hmem : x ∈ message.missing.filter fun x => x.1 ∈ (newRequests
        (s.suspend (message.missing.map fun x => .payload x.1 x.2) message.header
          true).batchRequests message.header.round (message.missing.map Prod.fst)).2 := by
      rw [List.mem_filter, decide_eq_true_eq]
      exact ⟨hx, newRequests_spec.2.mpr ⟨hnew, List.mem_map_of_mem hx⟩⟩
  · exact List.mem_dedup.mpr (List.mem_map_of_mem hmem)
  · exact List.mem_map.mpr ⟨x, List.mem_filter.mpr ⟨hmem, by simp⟩, rfl⟩

/-- As long as no cleanup comes across an old header that is suspended on batches: every
    such header has been looped back once, with its batches in the storage, or is still
    pending, and can be looped back as soon as they are; a request for a batch is only kept
    while a pending header waits for it; and a missing batch without a request is requested
    for the next header. -/
theorem batchSyncs_survive (gcDepth syncRetryDelay : ℕ) (store : Finset (StoreKey Digest))
    (s : HeaderWaiter PublicKey Digest Signature)
    (hs : Reaches (fun s e => s.step gcDepth syncRetryDelay e) (Timely gcDepth syncRetryDelay)
      (initial store) s) :
    (∀ w ∈ s.suspended,
      ((s.delivered.map Prod.fst).count w.handler = 1 ∧ ∀ k ∈ w.missing, k ∈ s.store) ∨
      ((s.delivered.map Prod.fst).count w.handler = 0 ∧
        s.pending.lookup w.deliver.id = some (w.deliver.round, w.handler, false) ∧
        ((∀ k ∈ w.missing, k ∈ s.store) →
          ∃ s', s.step gcDepth syncRetryDelay (.complete w.handler) = some s' ∧
            s'.delivered = s.delivered ++ [(w.handler, w.deliver)]))) ∧
    (∀ d ∈ s.batchRequests, ∃ w ∈ s.suspended,
      s.pending.lookup w.deliver.id = some (w.deliver.round, w.handler, false) ∧
      ∃ v, .payload d v ∈ w.missing) ∧
    ∀ message s', message.header.id ∉ s.pending →
      s.step gcDepth syncRetryDelay (.syncBatches message) = some s' →
      ∀ x ∈ message.missing, x.1 ∉ s.batchRequests →
        ∃ new, s'.sent = s.sent ++ new ∧
          ∃ digests, .synchronize x.2 digests message.header.author ∈ new ∧ x.1 ∈ digests := by
  obtain ⟨ht, hl⟩ : Tracked s ∧ LoopedBack s :=
    hs.invariant (I := fun s => Tracked s ∧ LoopedBack s)
      (fun _ _ _ h htimely hstep => step_tracked h.1 h.2 htimely hstep)
      ⟨tracked_initial store, loopedBack_initial store⟩
  refine ⟨fun w hw => ?_, fun d hd => ?_, fun message s' hid hstep x hx hnew =>
    requested hid hstep hx hnew⟩
  · rcases hl.once w hw with ⟨hmem, hzero⟩ | ⟨-, -, hone, hstore⟩
    · refine Or.inr ⟨hzero, (ht.batchSync w hmem (hl.isBatchSync w hw)).1, fun hstore => ?_⟩
      have hfind : s.waiting.find? (fun x => x.handler = w.handler) = some w :=
        find?_key_of_mem ht.nodup hmem
      refine ⟨(s.finish w).cleanup gcDepth, ?_, delivered_cleanup⟩
      unfold step arm
      dsimp only
      rw [hfind, Option.bind_some, if_pos hstore, Option.map_some, if_pos rfl]
    · exact Or.inl ⟨hone, hstore⟩
  · obtain ⟨w, hw, hb, hv⟩ := ht.batchRequests d hd
    exact ⟨w, hl.waiting w hw hb, (ht.batchSync w hw hb).1, hv⟩

end Runs

/-! ## A header of round 1 -/

namespace Suspended

/-- A header with one batch. -/
def header : Header ℕ ℕ Unit :=
  ⟨1, 1, ⟨[(7, 0)], by decide⟩, ∅, ∅, 0, 0, 10, ()⟩

def syncBatches : WaiterEvent ℕ ℕ Unit :=
  .syncBatches ⟨[(7, 0)], header, by decide, by decide⟩

/-- Consensus goes on before the batch has come. -/
def collected : List (WaiterEvent ℕ ℕ Unit) := [syncBatches, .advance 52, .timer 0]

def arrives : List (WaiterEvent ℕ ℕ Unit) := [syncBatches, .arrive (.payload 7 0), .complete 0]

end Suspended

open Suspended

/-- The header is not pending any more although its batch is missing, and the request for
    the batch stays although no header waits for it. -/
theorem not_batchSyncs_survive : ∃ s w,
    exec (fun s e => s.step 50 5000 e) (initial ∅) collected = some s ∧
    w ∈ s.suspended ∧ .payload 7 0 ∈ w.missing ∧ .payload 7 0 ∉ s.store ∧
    s.pending.keys = ∅ ∧ s.delivered = [] ∧ 7 ∈ s.batchRequests :=
  ⟨_, ⟨[.payload 7 0], header, 0, false, true⟩, rfl, by decide, by decide, by decide, by decide,
    rfl, by decide⟩

theorem batchSyncs_survive_sample : ∃ s,
    exec (fun s e => s.step 50 5000 e) (initial ∅) arrives = some s ∧
    ∀ w ∈ s.suspended, (s.delivered.map Prod.fst).count w.handler = 1 ∨
      (s.delivered.map Prod.fst).count w.handler = 0 := by
  obtain ⟨s, hs⟩ : ∃ s, exec (fun s e => s.step 50 5000 e) (initial ∅) arrives = some s :=
    ⟨_, rfl⟩
  have hallowed : Allowed (fun s e => s.step 50 5000 e) (Timely 50 5000) (initial ∅) arrives := by
    refine ⟨timely_of_young (by decide) (fun _ _ w hw => ?_), fun s₁ h₁ =>
      ⟨timely_of_young ?_ nofun, fun s₂ h₂ => ⟨timely_of_young ?_ nofun, fun _ _ => trivial⟩⟩⟩
    · cases hw
    · rw [← Option.some.inj h₁]
      decide
    · obtain rfl := Option.some.inj h₁
      rw [← Option.some.inj h₂]
      decide
  exact ⟨s, hs, fun w hw => ((batchSyncs_survive 50 5000 ∅ s (reaches_of_exec hs hallowed)).1 w
    hw).imp And.left And.left⟩

end HeaderWaiter

end DagBft
