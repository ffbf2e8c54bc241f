/-
  The task of a worker that gets missing batches and keeps track of those that were
  committed (`worker/src/synchronizer.rs`), with the queue of the commands to execute that
  the `Router` reads (`worker/src/router.rs`) and the in-memory storage.

  Of the storage it only matters which batches are there. Migration notices only go to the
  network, and what a committed batch is read for is only logged. The deletions of one
  cleanup are one step.

  `committed_fetched`: while committed batches are only taken when they have arrived, none of
  them is missing. `not_committed_fetched`: otherwise the loop waits, and takes nothing else.
  `deleted_late`: garbage collection deletes a batch two garbage collection depths after the
  round it was committed in, whether or not it has been executed (`not_deleted_late`).
-/
import DagBft.Lib.HashMap
import DagBft.Lib.OrdMap
import DagBft.Lib.Runs

namespace DagBft.Worker

/-- The messages of the primary. -/
inductive PrimaryWorkerMessage (PublicKey Digest : Type)
  /-- The primary indicates that the worker needs to sync the target missing batches. -/
  | synchronize (digests : List Digest) (target : PublicKey)
  /-- The primary indicates a round update. -/
  | cleanup (round : ℕ)
  /-- These batches have been committed by consensus. -/
  | committedBatches (round : ℕ) (digests : List Digest)
  | migrationNotices
  /-- Execute a committed batch: routed to the `Router`. -/
  | execute (digest : Digest)

/-- Where a `notify_read` is. -/
inductive NotifyRead
  | unsent
  /-- The storage did not have the batch and will send it when it is written. -/
  | waiting
  | answered
deriving DecidableEq

/-- A future of `waiting`. -/
structure Waiter (Digest : Type) where
  digest : Digest
  notifyRead : NotifyRead
  /-- The channel that cancels it. Channels are numbered as they are made. -/
  handler : ℕ
  /-- Whether a cleanup has sent on the channel. -/
  cancelled : Bool

/-- The parameters of the task. -/
structure SynchronizerSettings (PublicKey : Type) where
  gcDepth : ℕ
  syncRetryDelay : ℕ
  /-- Whether an authority has a worker with the id of this one. -/
  isKnown : PublicKey → Bool

structure Synchronizer (PublicKey Digest : Type) where
  /-- The batches in the storage. -/
  store : Finset Digest
  rxMessage : List (PrimaryWorkerMessage PublicKey Digest)
  /-- The commands to execute that were issued and not yet read from the storage and sent on
      by the `Router`. -/
  rxExecute : List Digest
  /-- What the `Router` has done for the first of them. -/
  router : NotifyRead
  /-- The batches that `handle_committed_batches` has still to read. The loop takes nothing
      else meanwhile. -/
  reading : List Digest
  /-- Loosely keep track of the primary's round number (only used for cleanup). -/
  round : ℕ
  /-- The batches that were requested: when, and the channel that cancels the waiter. -/
  pending : HashMap Digest (ℕ × ℕ × ℕ)
  /-- Tracks committed batch digests per consensus round for in-memory store GC. -/
  committedBatches : HashMap ℕ (List Digest)
  waiting : List (Waiter Digest)
  handlers : ℕ
  /-- The batch requests sent, to an authority or to some of the others. -/
  sent : List (Option PublicKey × List Digest)
  /-- The committed batches taken from the queue, with their rounds. -/
  taken : List (ℕ × List Digest)
  /-- The batches that garbage collection has deleted since they were last taken. -/
  collected : Finset Digest

inductive SynchronizerEvent (PublicKey Digest : Type)
  /-- A message of the primary arrives, in any order. -/
  | enqueue (message : PrimaryWorkerMessage PublicKey Digest)
  /-- `analyze` sends `CommittedBatches`, and `Execute` for each batch. -/
  | commit (round : ℕ) (digests : List Digest)
  /-- The loop takes a message. -/
  | take (now : ℕ)
  /-- A batch that `handle_committed_batches` waits for is read. -/
  | read
  /-- The future of a waiter is run for the first time. -/
  | poll (handler : ℕ)
  /-- A waiter has found its batch. -/
  | complete (handler : ℕ)
  /-- A waiter has been cancelled. -/
  | cancelled (handler : ℕ)
  | timer (now : ℕ)
  /-- Another task writes a batch to the storage. -/
  | arrive (digest : Digest)
  /-- The `Router` reads the next batch from the storage, or waits for it. -/
  | routerRead
  /-- The `Router` sends the batch on. -/
  | routerSend

variable {PublicKey Digest : Type} [LinearOrder Digest]

namespace Synchronizer

def initial (store : Finset Digest) : Synchronizer PublicKey Digest where
  store := store
  rxMessage := []
  rxExecute := []
  router := .unsent
  reading := []
  round := 0
  pending := ∅
  committedBatches := ∅
  waiting := []
  handlers := 0
  sent := []
  taken := []
  collected := ∅

variable (s : Synchronizer PublicKey Digest)

/-- The storage receives a `notify_read`. -/
def notifyRead (digest : Digest) : NotifyRead := if digest ∈ s.store then .answered else .waiting

/-- One digest of a sync request: add it to the waiters, and to what is missing. -/
def request (now : ℕ) (acc : Synchronizer PublicKey Digest × List Digest) (digest : Digest) :
    Synchronizer PublicKey Digest × List Digest :=
  -- Ensure we do not send twice the same sync request.
  if digest ∈ acc.1.pending then acc
  else
    ({ acc.1 with
        waiting := acc.1.waiting ++ [⟨digest, .unsent, acc.1.handlers, false⟩]
        handlers := acc.1.handlers + 1
        pending := acc.1.pending.insert digest (acc.1.round, acc.1.handlers, now) },
      -- Check if we received the batch in the meantime.
      if digest ∈ acc.1.store then acc.2 else acc.2 ++ [digest])

def synchronize (cfg : SynchronizerSettings PublicKey) (now : ℕ) (digests : List Digest)
    (target : PublicKey) : Synchronizer PublicKey Digest :=
  let (s, missing) := digests.foldl (request now) (s, [])
  if cfg.isKnown target then { s with sent := s.sent ++ [(some target, missing)] } else s

/-- The requests that the cleanup of a round cancels. -/
def Stale (gcRound : ℕ) (entry : ℕ × ℕ × ℕ) : Prop := entry.1 ≤ gcRound

instance (gcRound : ℕ) : DecidablePred (Stale gcRound) := fun entry =>
  inferInstanceAs (Decidable (entry.1 ≤ gcRound))

/-- A batch that was recorded for one of the old rounds. -/
def Old (batchGcRound : ℕ) (digest : Digest) : Prop :=
  ∃ x ∈ s.committedBatches.entries, x.1 ≤ batchGcRound ∧ digest ∈ x.2

instance (batchGcRound : ℕ) : DecidablePred (s.Old batchGcRound) := fun digest =>
  Multiset.decidableExistsMultiset (m := s.committedBatches.entries)
    (p := fun x : (_ : ℕ) × List Digest => x.1 ≤ batchGcRound ∧ digest ∈ x.2)

/-- GC old batches from the in-memory store. -/
def collect (batchGcRound : ℕ) : Synchronizer PublicKey Digest :=
  { s with
    store := s.store.filter fun digest => ¬ s.Old batchGcRound digest
    committedBatches := HashMap.retain s.committedBatches (batchGcRound < ·)
    collected := s.collected ∪ s.store.filter (s.Old batchGcRound) }

/-- The cleanup sends on a channel. -/
def Cancels (gcRound handler : ℕ) : Prop :=
  ∃ x ∈ s.pending.entries, Stale gcRound x.2 ∧ x.2.2.1 = handler

instance (gcRound handler : ℕ) : Decidable (s.Cancels gcRound handler) :=
  Multiset.decidableExistsMultiset (m := s.pending.entries)
    (p := fun x : (_ : Digest) × ℕ × ℕ × ℕ => Stale gcRound x.2 ∧ x.2.2.1 = handler)

def cleanup (gcDepth round : ℕ) : Synchronizer PublicKey Digest :=
  -- Keep track of the primary's round number.
  let s := { s with round := round }
  if round < gcDepth then s
  else
    let gcRound := round - gcDepth
    let s := { s with
      waiting := s.waiting.map fun w =>
        if s.Cancels gcRound w.handler then { w with cancelled := true } else w
      pending := HashMap.filter s.pending fun _ entry => ¬ Stale gcRound entry }
    if 2 * gcDepth ≤ round then s.collect (round - 2 * gcDepth) else s

/-- The loop takes a message. -/
def handle (cfg : SynchronizerSettings PublicKey) (now : ℕ) :
    PrimaryWorkerMessage PublicKey Digest → Synchronizer PublicKey Digest
  | .synchronize digests target => s.synchronize cfg now digests target
  | .committedBatches round digests =>
      { s with
        committedBatches := s.committedBatches.insert round
          ((s.committedBatches.lookup round).getD [] ++ digests)
        reading := digests
        taken := s.taken ++ [(round, digests)]
        collected := s.collected \ digests.toFinset }
  | .migrationNotices => s
  | .execute _ => s
  | .cleanup round => s.cleanup cfg.gcDepth round

/-- The batches whose requests are due again. -/
def retry (syncRetryDelay now : ℕ) : List Digest :=
  sorted (· ≤ ·) (HashMap.filter s.pending fun _ x => x.2.2 + syncRetryDelay < now).keys.val

/-- `none` where the event cannot happen. The loop only goes on when no committed batch is
    left to be read. -/
def step (cfg : SynchronizerSettings PublicKey) : SynchronizerEvent PublicKey Digest →
    Option (Synchronizer PublicKey Digest)
  | .enqueue message => match message with
      -- see `commit`
      | .committedBatches _ _ => none
      | message => some { s with rxMessage := s.rxMessage ++ [message] }
  | .commit round digests =>
      some
        { s with
          rxMessage := s.rxMessage ++ [.committedBatches round digests]
          rxExecute := s.rxExecute ++ digests }
  | .take now => match s.reading, s.rxMessage with
      | [], message :: rxMessage => some ({ s with rxMessage := rxMessage }.handle cfg now message)
      | _, _ => none
  | .read => match s.reading with
      | digest :: reading => if digest ∈ s.store then some { s with reading := reading } else none
      | [] => none
  | .poll handler =>
      if s.reading ≠ [] then none
      else some
        { s with
          waiting := s.waiting.map fun w =>
            if w.handler = handler ∧ w.notifyRead = .unsent then
              { w with notifyRead := s.notifyRead w.digest }
            else w }
  | .complete handler =>
      if s.reading ≠ [] then none
      else (s.waiting.find? fun w => w.handler = handler).bind fun w =>
        if w.notifyRead = .answered then
          -- We got the batch, remove it from the pending list.
          some
            { s with
              pending := s.pending.erase w.digest
              waiting := s.waiting.filter fun x => x.handler ≠ handler }
        else none
  | .cancelled handler =>
      if s.reading ≠ [] then none
      else (s.waiting.find? fun w => w.handler = handler).bind fun w =>
        if w.cancelled then
          some { s with waiting := s.waiting.filter fun x => x.handler ≠ handler }
        else none
  | .timer now =>
      if s.reading ≠ [] then none
      else if s.retry cfg.syncRetryDelay now = [] then some s
      else some { s with sent := s.sent ++ [(none, s.retry cfg.syncRetryDelay now)] }
  | .arrive digest =>
      some
        { s with
          store := insert digest s.store
          waiting := s.waiting.map fun w =>
            if w.digest = digest ∧ w.notifyRead = .waiting then { w with notifyRead := .answered }
            else w
          router := if s.rxExecute.head? = some digest ∧ s.router = .waiting then .answered
            else s.router }
  | .routerRead => match s.router, s.rxExecute with
      | .unsent, digest :: _ => some { s with router := s.notifyRead digest }
      | _, _ => none
  | .routerSend => match s.router, s.rxExecute with
      | .answered, _ :: rxExecute => some { s with router := .unsent, rxExecute := rxExecute }
      | _, _ => none

/-! ## What is known of the committed batches -/

section Steps

variable {cfg : SynchronizerSettings PublicKey} {s s' s'' : Synchronizer PublicKey Digest}
  {e : SynchronizerEvent PublicKey Digest} {d : Digest}

/-- Neither the storage nor what is known of the committed batches changes. -/
structure Frame (s s' : Synchronizer PublicKey Digest) : Prop where
  store : s'.store = s.store
  reading : s'.reading = s.reading
  committedBatches : s'.committedBatches = s.committedBatches
  taken : s'.taken = s.taken
  collected : s'.collected = s.collected

omit [LinearOrder Digest] in
theorem Frame.refl (s : Synchronizer PublicKey Digest) : Frame s s := ⟨rfl, rfl, rfl, rfl, rfl⟩

omit [LinearOrder Digest] in
theorem Frame.trans (h : Frame s s') (h' : Frame s' s'') : Frame s s'' where
  store := h'.store.trans h.store
  reading := h'.reading.trans h.reading
  committedBatches := h'.committedBatches.trans h.committedBatches
  taken := h'.taken.trans h.taken
  collected := h'.collected.trans h.collected

theorem request_spec {now : ℕ} {acc : Synchronizer PublicKey Digest × List Digest} :
    Frame acc.1 (request now acc d).1 ∧
      ∀ x, x ∈ acc.1.pending → x ∈ (request now acc d).1.pending := by
  unfold request
  split
  · exact ⟨Frame.refl _, fun _ hx => hx⟩
  · exact ⟨⟨rfl, rfl, rfl, rfl, rfl⟩, fun x hx => Finmap.mem_insert.mpr (Or.inr hx)⟩

/-- A sync request only adds requests. -/
theorem synchronize_spec {now : ℕ} {digests : List Digest} {target : PublicKey} :
    Frame s (s.synchronize cfg now digests target) ∧
      ∀ x, x ∈ s.pending → x ∈ (s.synchronize cfg now digests target).pending := by
  have key : ∀ acc : Synchronizer PublicKey Digest × List Digest,
      Frame acc.1 (digests.foldl (request now) acc).1 ∧
        ∀ x, x ∈ acc.1.pending → x ∈ (digests.foldl (request now) acc).1.pending := by
    induction digests with
    | nil => exact fun acc => ⟨Frame.refl _, fun _ hx => hx⟩
    | cons digest digests ih =>
        intro acc
        obtain ⟨hframe, hpending⟩ : Frame acc.1 (request now acc digest).1 ∧
            ∀ x, x ∈ acc.1.pending → x ∈ (request now acc digest).1.pending := request_spec
        obtain ⟨hframe', hpending'⟩ := ih (request now acc digest)
        exact ⟨hframe.trans hframe', fun x hx => hpending' x (hpending x hx)⟩
  obtain ⟨hframe, hpending⟩ := key (s, [])
  unfold synchronize
  dsimp only
  split
  · exact ⟨⟨hframe.store, hframe.reading, hframe.committedBatches, hframe.taken,
      hframe.collected⟩, hpending⟩
  · exact ⟨hframe, hpending⟩

/-- What a step does to the storage and to what is known of the committed batches. -/
theorem step_cases (h : s.step cfg e = some s') :
    Frame s s' ∨
    (∃ now round digests rest, e = .take now ∧ s.reading = [] ∧
      s.rxMessage = .committedBatches round digests :: rest ∧
      s' = { s with rxMessage := rest }.handle cfg now (.committedBatches round digests)) ∨
    (∃ now round rest, e = .take now ∧ s.reading = [] ∧ s.rxMessage = .cleanup round :: rest ∧
      s' = { s with rxMessage := rest }.cleanup cfg.gcDepth round) ∨
    (∃ digest reading, s.reading = digest :: reading ∧ digest ∈ s.store ∧
      s' = { s with reading := reading }) ∨
    ∃ digest, s'.store = insert digest s.store ∧ s'.reading = s.reading ∧
      s'.committedBatches = s.committedBatches ∧ s'.taken = s.taken ∧
      s'.collected = s.collected := by
  cases e with
  | enqueue message =>
      unfold step at h
      dsimp only at h
      split at h
      · cases h
      · obtain rfl := Option.some.inj h
        exact Or.inl ⟨rfl, rfl, rfl, rfl, rfl⟩
  | commit round digests =>
      obtain rfl := Option.some.inj h
      exact Or.inl ⟨rfl, rfl, rfl, rfl, rfl⟩
  | take now =>
      unfold step at h
      dsimp only at h
      split at h
      · rename_i message rest hreading hmessage
        obtain rfl := Option.some.inj h
        cases message with
        | synchronize digests target =>
            left
            have hsync : Frame { s with rxMessage := rest }
                (synchronize { s with rxMessage := rest } cfg now digests target) :=
              synchronize_spec.1
            exact ⟨hsync.store, hsync.reading, hsync.committedBatches, hsync.taken,
              hsync.collected⟩
        | cleanup round =>
            exact Or.inr (Or.inr (Or.inl ⟨now, round, rest, rfl, hreading, hmessage, rfl⟩))
        | committedBatches round digests =>
            exact Or.inr (Or.inl ⟨now, round, digests, rest, rfl, hreading, hmessage, rfl⟩)
        | migrationNotices => exact Or.inl ⟨rfl, rfl, rfl, rfl, rfl⟩
        | execute digest => exact Or.inl ⟨rfl, rfl, rfl, rfl, rfl⟩
      · cases h
  | read =>
      unfold step at h
      dsimp only at h
      split at h
      · rename_i digest reading hreading
        split at h
        · rename_i hstore
          exact Or.inr (Or.inr (Or.inr (Or.inl
            ⟨digest, reading, hreading, hstore, (Option.some.inj h).symm⟩)))
        · cases h
      · cases h
  | poll handler =>
      unfold step at h
      dsimp only at h
      split at h
      · cases h
      · obtain rfl := Option.some.inj h
        exact Or.inl ⟨rfl, rfl, rfl, rfl, rfl⟩
  | complete handler =>
      unfold step at h
      dsimp only at h
      split at h
      · cases h
      · obtain ⟨w, -, h⟩ := Option.bind_eq_some_iff.mp h
        split at h
        · obtain rfl := Option.some.inj h
          exact Or.inl ⟨rfl, rfl, rfl, rfl, rfl⟩
        · cases h
  | cancelled handler =>
      unfold step at h
      dsimp only at h
      split at h
      · cases h
      · obtain ⟨w, -, h⟩ := Option.bind_eq_some_iff.mp h
        split at h
        · obtain rfl := Option.some.inj h
          exact Or.inl ⟨rfl, rfl, rfl, rfl, rfl⟩
        · cases h
  | timer now =>
      unfold step at h
      dsimp only at h
      split at h
      · cases h
      · split at h
        · obtain rfl := Option.some.inj h
          exact Or.inl (Frame.refl _)
        · obtain rfl := Option.some.inj h
          exact Or.inl ⟨rfl, rfl, rfl, rfl, rfl⟩
  | arrive digest =>
      obtain rfl := Option.some.inj h
      exact Or.inr (Or.inr (Or.inr (Or.inr ⟨digest, rfl, rfl, rfl, rfl, rfl⟩)))
  | routerRead =>
      unfold step at h
      dsimp only at h
      split at h
      · obtain rfl := Option.some.inj h
        exact Or.inl ⟨rfl, rfl, rfl, rfl, rfl⟩
      · cases h
  | routerSend =>
      unfold step at h
      dsimp only at h
      split at h
      · obtain rfl := Option.some.inj h
        exact Or.inl ⟨rfl, rfl, rfl, rfl, rfl⟩
      · cases h

/-! ## Cleanup -/

/-- What a cleanup does to the storage and to what is known of the committed batches. -/
structure Cleaned (gcDepth round : ℕ) (s s' : Synchronizer PublicKey Digest) : Prop where
  reading : s'.reading = s.reading
  taken : s'.taken = s.taken
  rxExecute : s'.rxExecute = s.rxExecute
  store : ∀ d ∈ s.store, d ∈ s'.store ∨
    d ∈ s'.collected ∧ 2 * gcDepth ≤ round ∧ s.Old (round - 2 * gcDepth) d
  collected : s.collected ⊆ s'.collected
  committedBatches : ∀ r ds, s'.committedBatches.lookup r = some ds →
    s.committedBatches.lookup r = some ds

theorem cleaned_cleanup (gcDepth round : ℕ) :
    Cleaned gcDepth round s (s.cleanup gcDepth round) := by
  unfold cleanup
  dsimp only
  split
  · exact ⟨rfl, rfl, rfl, fun _ h => Or.inl h, fun _ h => h, fun _ _ h => h⟩
  split
  · rename_i hround
    refine ⟨rfl, rfl, rfl, fun d hd => ?_, Finset.subset_union_left, fun r ds hl => ?_⟩
    · by_cases hold : s.Old (round - 2 * gcDepth) d
      · exact Or.inr ⟨Finset.mem_union_right _ (Finset.mem_filter.mpr ⟨hd, hold⟩), hround, hold⟩
      · exact Or.inl (Finset.mem_filter.mpr ⟨hd, hold⟩)
    · unfold collect at hl
      dsimp only at hl
      rw [HashMap.lookup_retain] at hl
      split at hl
      · exact hl
      · cases hl
  · exact ⟨rfl, rfl, rfl, fun _ h => Or.inl h, fun _ h => h, fun _ _ h => h⟩

/-- What is recorded was taken. -/
def Recorded (s : Synchronizer PublicKey Digest) : Prop :=
  ∀ r ds, s.committedBatches.lookup r = some ds → ∀ d ∈ ds, ∃ x ∈ s.taken, x.1 = r ∧ d ∈ x.2

/-- A committed batch that was taken is in the storage, or has been there, or the loop waits
    for it. -/
def Kept (s : Synchronizer PublicKey Digest) : Prop :=
  ∀ x ∈ s.taken, ∀ d ∈ x.2, d ∈ s.store ∨ d ∈ s.collected ∨ d ∈ s.reading

theorem Recorded.step (hs : Recorded s) (h : s.step cfg e = some s') : Recorded s' := by
  rcases step_cases h with hframe | ⟨now, round, digests, rest, -, -, -, rfl⟩ |
    ⟨now, round, rest, -, -, -, rfl⟩ | ⟨digest, reading, -, -, rfl⟩ | ⟨digest, -, -, hc, ht, -⟩
  · intro r ds hl
    rw [hframe.committedBatches] at hl
    rw [hframe.taken]
    exact hs r ds hl
  · intro r ds hl d hd
    unfold handle at hl ⊢
    dsimp only at hl ⊢
    rw [HashMap.lookup_insert_eq] at hl
    split at hl
    · rename_i hr
      subst hr
      rw [← Option.some.inj hl] at hd
      rcases List.mem_append.mp hd with hd | hd
      · cases hold : s.committedBatches.lookup r with
        | none =>
            rw [hold] at hd
            cases hd
        | some ds' =>
            rw [hold] at hd
            obtain ⟨x, hx, hxd⟩ := hs r ds' hold d hd
            exact ⟨x, List.mem_append_left _ hx, hxd⟩
      · exact ⟨_, List.mem_append_right _ (List.mem_singleton_self _), rfl, hd⟩
    · obtain ⟨x, hx, hxd⟩ := hs r ds hl d hd
      exact ⟨x, List.mem_append_left _ hx, hxd⟩
  · intro r ds hl
    have hclean : Cleaned cfg.gcDepth round { s with rxMessage := rest } _ :=
      cleaned_cleanup cfg.gcDepth round
    rw [hclean.taken]
    exact hs r ds (hclean.committedBatches r ds hl)
  · exact hs
  · intro r ds hl
    rw [hc] at hl
    rw [ht]
    exact hs r ds hl

theorem Kept.step (hs : Kept s) (h : s.step cfg e = some s') : Kept s' := by
  rcases step_cases h with hframe | ⟨now, round, digests, rest, -, hreading, -, rfl⟩ |
    ⟨now, round, rest, -, -, -, rfl⟩ | ⟨digest, reading, hreading, hstore, rfl⟩ |
    ⟨digest, hstore, hreading, -, htaken, hcollected⟩
  · intro x hx d hd
    rw [hframe.taken] at hx
    rw [hframe.store, hframe.collected, hframe.reading]
    exact hs x hx d hd
  · intro x hx d hd
    unfold handle at hx ⊢
    dsimp only at hx ⊢
    by_cases hnew : d ∈ digests
    · exact Or.inr (Or.inr hnew)
    · rcases List.mem_append.mp hx with hx | hx
      · rcases hs x hx d hd with hd | hd | hd
        · exact Or.inl hd
        · exact Or.inr (Or.inl (Finset.mem_sdiff.mpr ⟨hd, by simpa using hnew⟩))
        · rw [hreading] at hd
          cases hd
      · rw [List.mem_singleton.mp hx] at hd
        exact absurd hd hnew
  · intro x hx d hd
    have hclean : Cleaned cfg.gcDepth round { s with rxMessage := rest } _ :=
      cleaned_cleanup cfg.gcDepth round
    rw [hclean.taken] at hx
    rw [hclean.reading]
    rcases hs x hx d hd with hd | hd | hd
    · exact (hclean.store d hd).imp_right fun h => Or.inl h.1
    · exact Or.inr (Or.inl (hclean.collected hd))
    · exact Or.inr (Or.inr hd)
  · intro x hx d hd
    rcases hs x hx d hd with hd | hd | hd
    · exact Or.inl hd
    · exact Or.inr (Or.inl hd)
    · rw [hreading] at hd
      rcases List.mem_cons.mp hd with rfl | hd
      · exact Or.inl hstore
      · exact Or.inr (Or.inr hd)
  · intro x hx d hd
    rw [htaken] at hx
    rw [hstore, hreading, hcollected]
    exact (hs x hx d hd).imp_left fun h => Finset.mem_insert_of_mem h

/-! ## Committed batches that are missing -/

/-- A committed batch that was taken from the queue, is not in the storage and was not
    garbage collected is being requested, and the loop can go on. -/
def Fetched (cfg : SynchronizerSettings PublicKey) (s : Synchronizer PublicKey Digest) : Prop :=
  ∀ x ∈ s.taken, ∀ d ∈ x.2, d ∉ s.store → d ∉ s.collected →
    d ∈ s.pending ∧ ∀ now, (s.step cfg (.timer now)).isSome

/-- The requests for the committed batches that have not been dispatched are kept. -/
def KeepsRequests (s s' : Synchronizer PublicKey Digest) : Prop :=
  ∀ d ∈ s.rxExecute, d ∈ s.pending → d ∈ s'.pending

/-- Committed batches are taken when they have arrived, and a cleanup when it is not for the
    request of a committed batch that has not been dispatched. -/
def TimelyMessage (gcDepth : ℕ) (s : Synchronizer PublicKey Digest) :
    PrimaryWorkerMessage PublicKey Digest → Prop
  | .committedBatches _ digests => ∀ d ∈ digests, d ∈ s.store
  | .cleanup round => gcDepth ≤ round → ∀ d ∈ s.rxExecute, ∀ entry,
      s.pending.lookup d = some entry → round - gcDepth < entry.1
  | _ => True

/-- The message that the loop takes next is timely. -/
def Timely (cfg : SynchronizerSettings PublicKey) (s : Synchronizer PublicKey Digest) :
    SynchronizerEvent PublicKey Digest → Prop
  | .take _ => ∀ message rest, s.rxMessage = message :: rest →
      TimelyMessage cfg.gcDepth s message
  | _ => True

theorem mem_pending_iff : d ∈ s.pending ↔ ∃ entry, s.pending.lookup d = some entry := by
  rw [← Finmap.lookup_isSome, Option.isSome_iff_exists]

/-- A cleanup keeps the requests that are not old, and only those. -/
theorem mem_pending_cleanup {gcDepth round : ℕ} : d ∈ (s.cleanup gcDepth round).pending ↔
    ∃ entry, s.pending.lookup d = some entry ∧ (gcDepth ≤ round → round - gcDepth < entry.1) := by
  have hfilter : ∀ m : HashMap Digest (ℕ × ℕ × ℕ), m = HashMap.filter s.pending
      (fun _ entry => ¬ Stale (round - gcDepth) entry) → (d ∈ m ↔
        ∃ entry, s.pending.lookup d = some entry ∧ round - gcDepth < entry.1) := by
    rintro m rfl
    rw [← Finmap.lookup_isSome, Option.isSome_iff_exists]
    refine exists_congr fun entry => ?_
    rw [HashMap.lookup_filter_eq_some]
    exact and_congr_right fun _ => not_le
  unfold cleanup
  dsimp only
  split
  · rename_i hround
    rw [mem_pending_iff]
    refine exists_congr fun entry => ?_
    rw [and_iff_left fun h => by omega]
  · rename_i hround
    have hle : gcDepth ≤ round := Nat.le_of_not_lt hround
    simp only [hle, forall_true_left]
    split
    · exact hfilter _ rfl
    · exact hfilter _ rfl

/-- The batches that the loop waits for have arrived. -/
theorem reading_of_timely (hs : ∀ d ∈ s.reading, d ∈ s.store) (hok : Timely cfg s e)
    (h : s.step cfg e = some s') : ∀ d ∈ s'.reading, d ∈ s'.store := by
  rcases step_cases h with hframe | ⟨now, round, digests, rest, rfl, hreading, hm, rfl⟩ |
    ⟨now, round, rest, -, hreading, -, rfl⟩ | ⟨digest, reading, hreading, hstore, rfl⟩ |
    ⟨digest, hstore, hreading, -⟩
  · rw [hframe.reading, hframe.store]
    exact hs
  · exact hok _ rest hm
  · have hclean : Cleaned cfg.gcDepth round { s with rxMessage := rest } _ :=
      cleaned_cleanup cfg.gcDepth round
    intro d hd
    rw [hclean.reading, hreading] at hd
    cases hd
  · exact fun d hd => hs d (hreading ▸ List.mem_cons_of_mem _ hd)
  · rw [hreading, hstore]
    exact fun d hd => Finset.mem_insert_of_mem (hs d hd)

theorem timer_isSome_iff {now : ℕ} : (s.step cfg (.timer now)).isSome ↔ s.reading = [] := by
  unfold step
  dsimp only
  split
  · rename_i h
    simp [h]
  · rename_i h
    rw [not_not] at h
    split <;> simp [h]

theorem fetched_of_reading (hs : Kept s) (hreading : ∀ d ∈ s.reading, d ∈ s.store) :
    Fetched cfg s := by
  intro x hx d hd hstore hcollected
  rcases hs x hx d hd with hd | hd | hd
  · exact absurd hd hstore
  · exact absurd hd hcollected
  · exact absurd (hreading d hd) hstore

/-- What a message that is taken changes is in order exactly when it is timely. -/
theorem take_iff {now : ℕ} (hs : Kept s) (hreading : ∀ d ∈ s.reading, d ∈ s.store)
    (h : s.step cfg (.take now) = some s') :
    Timely cfg s (.take now) ↔ Fetched cfg s' ∧ KeepsRequests s s' := by
  constructor
  · intro hok
    refine ⟨fetched_of_reading (hs.step h) (reading_of_timely hreading hok h), ?_⟩
    unfold step at h
    dsimp only at h
    split at h
    · rename_i message rest _ hm
      obtain rfl := Option.some.inj h
      have htimely := hok message rest hm
      intro d hd hp
      cases message with
      | synchronize digests target =>
          have hsync : ∀ x, x ∈ ({ s with rxMessage := rest } : Synchronizer _ _).pending →
              x ∈ (synchronize { s with rxMessage := rest } cfg now digests target).pending :=
            synchronize_spec.2
          exact hsync d hp
      | cleanup round =>
          obtain ⟨entry, hentry⟩ := mem_pending_iff.mp hp
          exact mem_pending_cleanup.mpr ⟨entry, hentry, fun hle => htimely hle d hd entry hentry⟩
      | committedBatches round digests => exact hp
      | migrationNotices => exact hp
      | execute digest => exact hp
    · cases h
  · rintro ⟨hfetched, hkeeps⟩ message rest hm
    unfold step at h
    dsimp only at h
    rw [hm] at h
    split at h
    · rename_i message' rest' _ hm'
      obtain ⟨rfl, rfl⟩ := List.cons.inj hm'
      obtain rfl := Option.some.inj h
      cases message with
      | synchronize digests target => trivial
      | cleanup round =>
          intro hle d hd entry hentry
          obtain ⟨entry', hentry', hlt⟩ := mem_pending_cleanup.mp
            (hkeeps d hd (mem_pending_iff.mpr ⟨entry, hentry⟩))
          obtain rfl := Option.some.inj (hentry.symm.trans hentry')
          exact hlt hle
      | committedBatches round digests =>
          intro d hd
          by_contra hstore
          -- the loop waits for the batch
          have hnot : d ∉ s.collected \ digests.toFinset := fun hmem =>
            (Finset.mem_sdiff.mp hmem).2 (List.mem_toFinset.mpr hd)
          obtain ⟨-, htimer⟩ := hfetched (round, digests)
            (List.mem_append_right _ (List.mem_singleton_self _)) d hd hstore hnot
          have hnil : digests = [] := timer_isSome_iff.mp (htimer 0)
          rw [hnil] at hd
          cases hd
      | migrationNotices => trivial
      | execute digest => trivial
    · cases h

omit [LinearOrder Digest] in
theorem kept_initial (store : Finset Digest) :
    Kept (initial store : Synchronizer PublicKey Digest) := by
  intro x hx
  cases hx

omit [LinearOrder Digest] in
theorem recorded_initial (store : Finset Digest) :
    Recorded (initial store : Synchronizer PublicKey Digest) := by
  intro r ds hl
  unfold initial at hl
  rw [Finmap.lookup_empty] at hl
  cases hl

/-- In every run in which the messages taken are timely: a committed batch that was taken
    and is not in the storage is being requested and the loop can go on, and no cleanup
    removes the request of a committed batch that has not been dispatched. A message that is
    not timely ends that. -/
theorem committed_fetched (cfg : SynchronizerSettings PublicKey) (store : Finset Digest)
    (s : Synchronizer PublicKey Digest)
    (hs : Reaches (fun s e => s.step cfg e) (Timely cfg) (initial store) s) :
    Fetched cfg s ∧ ∀ now s', s.step cfg (.take now) = some s' →
      (Timely cfg s (.take now) ↔ Fetched cfg s' ∧ KeepsRequests s s') := by
  obtain ⟨hkept, hreading⟩ : Kept s ∧ ∀ d ∈ s.reading, d ∈ s.store :=
    hs.invariant (I := fun s => Kept s ∧ ∀ d ∈ s.reading, d ∈ s.store)
      (fun _ _ _ h hok hstep => ⟨h.1.step hstep, reading_of_timely h.2 hok hstep⟩)
      ⟨kept_initial store, fun d hd => by cases hd⟩
  exact ⟨fetched_of_reading hkept hreading, fun now s' h => take_iff hkept hreading h⟩

/-! ## Batches that are deleted -/

/-- A batch is only deleted by a cleanup, two garbage collection depths after a round in
    which it was committed. -/
theorem deleted_late (cfg : SynchronizerSettings PublicKey) (store : Finset Digest)
    (s : Synchronizer PublicKey Digest)
    (hs : Reaches (fun s e => s.step cfg e) Always (initial store) s)
    (e : SynchronizerEvent PublicKey Digest) (s' : Synchronizer PublicKey Digest)
    (hstep : s.step cfg e = some s') (d : Digest) (hd : d ∈ s.store) (hd' : d ∉ s'.store) :
    ∃ now round rest, e = .take now ∧ s.rxMessage = .cleanup round :: rest ∧
      ∃ x ∈ s.taken, d ∈ x.2 ∧ x.1 + 2 * cfg.gcDepth ≤ round := by
  have hrec : Recorded s :=
    hs.invariant (fun _ _ _ h _ hstep => h.step hstep) (recorded_initial store)
  rcases step_cases hstep with hframe | ⟨now, round, digests, rest, -, -, -, rfl⟩ |
    ⟨now, round, rest, rfl, -, hm, rfl⟩ | ⟨digest, reading, -, -, rfl⟩ | ⟨digest, hstore, -⟩
  · exact absurd (hframe.store ▸ hd) hd'
  · exact absurd hd hd'
  · refine ⟨now, round, rest, rfl, hm, ?_⟩
    have hclean : Cleaned cfg.gcDepth round { s with rxMessage := rest } _ :=
      cleaned_cleanup cfg.gcDepth round
    rcases hclean.store d hd with hd | ⟨-, hround, ⟨r, ds⟩, hx, hr, hdr⟩
    · exact absurd hd hd'
    · obtain ⟨x, hxt, rfl, hxd⟩ := hrec r ds (Finmap.lookup_eq_some_iff.mpr hx) d hdr
      dsimp only at hr
      exact ⟨x, hxt, hxd, by omega⟩
  · exact absurd hd hd'
  · rw [hstore] at hd'
    exact absurd (Finset.mem_insert_of_mem hd) hd'

end Steps

/-! ## Two batches -/

namespace Batches

def settings : SynchronizerSettings ℕ := ⟨50, 5000, fun _ => true⟩

/-- Batch 7 is committed before it arrives. -/
def missing : List (SynchronizerEvent ℕ ℕ) := [.commit 1 [7], .take 0]

/-- Batch 8 is requested, and committed while the cleanup of round 50 is in the queue. -/
def requested : List (SynchronizerEvent ℕ ℕ) :=
  [.enqueue (.synchronize [8] 1), .take 0, .enqueue (.cleanup 50), .commit 1 [8]]

/-- Batch 7 is there when it is committed, and the cleanup of round 101 comes. -/
def committed : List (SynchronizerEvent ℕ ℕ) :=
  [.commit 1 [7], .take 0, .read, .enqueue (.cleanup 101)]

end Batches

open Batches

/-- The loop waits for a committed batch that nobody requests, and a cleanup removes the
    request of a committed batch that has not been dispatched. -/
theorem not_committed_fetched :
    (∃ s, exec (fun s e => s.step settings e) (initial ∅) missing = some s ∧
      (1, [7]) ∈ s.taken ∧ 7 ∉ s.store ∧ 7 ∉ s.collected ∧ 7 ∉ s.pending ∧
      ∀ now, s.step settings (.timer now) = none) ∧
    ∃ s s', exec (fun s e => s.step settings e) (initial ∅) requested = some s ∧
      s.step settings (.take 0) = some s' ∧ 8 ∈ s.rxExecute ∧ 8 ∈ s.pending ∧
      8 ∉ s'.pending :=
  ⟨⟨_, rfl, by decide, by decide, by decide, by decide, fun _ => rfl⟩,
    _, _, rfl, rfl, by decide, by decide, by decide⟩

theorem committed_fetched_sample : ∃ s,
    exec (fun s e => s.step settings e) (initial {7}) committed = some s ∧
    Fetched settings s := by
  obtain ⟨s, hs⟩ : ∃ s, exec (fun s e => s.step settings e) (initial {7}) committed = some s :=
    ⟨_, rfl⟩
  refine ⟨s, hs, (committed_fetched settings {7} s (reaches_of_exec hs ⟨trivial, fun s₁ h₁ =>
    ⟨?_, fun _ _ => ⟨trivial, fun _ _ => ⟨trivial, fun _ _ => trivial⟩⟩⟩⟩)).1⟩
  obtain rfl := Option.some.inj h₁
  intro message rest hm
  obtain ⟨rfl, -⟩ := List.cons.inj hm
  show ∀ d ∈ [7], d ∈ ({7} : Finset ℕ)
  decide

/-- A batch is deleted before the `Router` has read it. -/
theorem not_deleted_late : ∃ s s',
    exec (fun s e => s.step settings e) (initial {7}) committed = some s ∧
    s.step settings (.take 0) = some s' ∧ 7 ∈ s.rxExecute ∧ 7 ∈ s.store ∧ 7 ∉ s'.store :=
  ⟨_, _, rfl, rfl, by decide, by decide, by decide⟩

theorem deleted_late_sample : ∃ s s',
    exec (fun s e => s.step settings e) (initial {7}) committed = some s ∧
    s.step settings (.take 0) = some s' ∧
    ∃ x ∈ s.taken, 7 ∈ x.2 ∧ ∃ round, x.1 + 2 * 50 ≤ round := by
  obtain ⟨s, s', hs, hstep, hd, hd'⟩ : ∃ s s',
      exec (fun s e => s.step settings e) (initial {7}) committed = some s ∧
      s.step settings (.take 0) = some s' ∧ 7 ∈ s.store ∧ 7 ∉ s'.store :=
    ⟨_, _, rfl, rfl, by decide, by decide⟩
  obtain ⟨_, round, _, -, -, x, hx, hxd, hround⟩ := deleted_late settings {7} s
    (reaches_of_exec hs (allowed_always _ _)) (.take 0) s' hstep 7 hd hd'
  exact ⟨s, s', hs, hstep, x, hx, hxd, round, hround⟩

end Synchronizer

end DagBft.Worker
