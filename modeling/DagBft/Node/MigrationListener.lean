/-
  The client that listens for migration notices and changes the routes of accounts
  (`migration_listener` in `node/src/benchmark_client.rs`).

  The streams of the validators are read by tasks of their own, which share the votes and
  the routing tables. A task counts the votes of a message and removes what is confirmed
  under one lock, and then takes the lock of each routing table: events of other streams
  may come in between. What does not deserialize is dropped.

  `routes_current`: while no validator takes back a vote that still counts, every change of
  a route is backed by the most recent notice of an honest validator.
  `not_routes_current`: the votes for an old target outlive the change to a new one.
-/
import DagBft.Lib.HashMap
import DagBft.Lib.Runs
import DagBft.Node.Analyze

namespace DagBft.Node

/-- `f + 1` of `n` validators. -/
def fPlusOne (numValidators : ℕ) : ℕ := (numValidators - 1) / 3 + 1

/-- The parameters of the listener, and whose stream each stream is. -/
structure Listener (PublicKey Stream : Type) where
  numValidators : ℕ
  /-- `(account_start, account_count, region)`. -/
  accountRangesByRegion : List (ℕ × ℕ × PublicKey)
  owner : Stream → PublicKey

/-- The votes, by account and new target. -/
abbrev MigrationVotes (PublicKey : Type) := HashMap (ℕ × PublicKey) (Finset PublicKey)

structure Routing (PublicKey Stream : Type) where
  votes : MigrationVotes PublicKey
  /-- The updates that a stream has confirmed and not yet written. -/
  confirmed : Stream → List (MigrationNotice PublicKey)
  /-- The routing table of each region. -/
  routingTables : HashMap PublicKey (HashMap ℕ PublicKey)
  /-- All notices received so far, with their senders. The code does not keep them. -/
  received : List (PublicKey × MigrationNotice PublicKey)

inductive RoutingEvent (PublicKey Stream : Type)
  /-- A message comes on a stream. -/
  | receive (stream : Stream) (notices : List (MigrationNotice PublicKey))
  /-- A stream writes its updates of a region. The regions come in any order. -/
  | write (stream : Stream) (region : PublicKey)

variable {PublicKey Stream : Type} [LinearOrder PublicKey] [DecidableEq Stream]

def MigrationNotice.key (notice : MigrationNotice PublicKey) : ℕ × PublicKey :=
  (notice.accountId, notice.newTarget)

/-- The validators whose votes for a target of an account count. -/
def MigrationVotes.voters (votes : MigrationVotes PublicKey) (key : ℕ × PublicKey) :
    Finset PublicKey := (votes.lookup key).getD ∅

/-- One notice of a message. -/
def vote (fPlusOne : ℕ) (sender : PublicKey)
    (acc : MigrationVotes PublicKey × List (MigrationNotice PublicKey))
    (notice : MigrationNotice PublicKey) :
    MigrationVotes PublicKey × List (MigrationNotice PublicKey) :=
  let entry := insert sender (acc.1.voters notice.key)
  (acc.1.insert notice.key entry,
    if fPlusOne ≤ entry.card then acc.2 ++ [notice] else acc.2)

/-- The votes of a message: what counts afterwards, and what is confirmed. -/
def countVotes (fPlusOne : ℕ) (sender : PublicKey) (votes : MigrationVotes PublicKey)
    (notices : List (MigrationNotice PublicKey)) :
    MigrationVotes PublicKey × List (MigrationNotice PublicKey) :=
  let (votes, confirmed) := notices.foldl (vote fPlusOne sender) (votes, [])
  -- Clean up confirmed entries atomically to avoid TOCTOU with vote accumulation
  (confirmed.foldl (fun votes notice => votes.erase notice.key) votes, confirmed)

namespace Listener

variable (l : Listener PublicKey Stream)

def findRegionForAccount (accountId : ℕ) : Option PublicKey :=
  l.accountRangesByRegion.findSome? fun (start, count, region) =>
    -- `saturating_add`
    if start ≤ accountId ∧ accountId < min (start + count) (2 ^ 64 - 1) then some region else none

/-- The updates of a region. -/
def updatesOf (region : PublicKey) (confirmed : List (MigrationNotice PublicKey)) :
    List (MigrationNotice PublicKey) :=
  confirmed.filter fun notice => l.findRegionForAccount notice.accountId = some region

/-- `none` where the event cannot happen: a stream reads on when it has written all of its
    updates, and it only writes where it has any. -/
def step (s : Routing PublicKey Stream) :
    RoutingEvent PublicKey Stream → Option (Routing PublicKey Stream)
  | .receive stream notices =>
      if s.confirmed stream ≠ [] then none
      else
        let (votes, confirmed) :=
          countVotes (fPlusOne l.numValidators) (l.owner stream) s.votes notices
        some
          { votes := votes
            -- no region range may contain the account
            confirmed := Function.update s.confirmed stream
              (confirmed.filter fun notice => (l.findRegionForAccount notice.accountId).isSome)
            routingTables := s.routingTables
            received := s.received ++ notices.map fun notice => (l.owner stream, notice) }
  | .write stream region =>
      let updates := l.updatesOf region (s.confirmed stream)
      if updates = [] then none
      else some
        { s with
          confirmed := Function.update s.confirmed stream
            ((s.confirmed stream).filter fun notice => notice ∉ updates)
          routingTables := match s.routingTables.lookup region with
            -- the routing table of the region may be missing
            | none => s.routingTables
            | some table => s.routingTables.insert region
                (updates.foldl (fun t notice => t.insert notice.accountId notice.newTarget) table) }

end Listener

/-- The new target in the most recent of some notices. -/
def latestOf (received : List (PublicKey × MigrationNotice PublicKey)) (sender : PublicKey)
    (accountId : ℕ) : Option PublicKey :=
  (received.reverse.find? fun x => x.1 = sender ∧ x.2.accountId = accountId).map
    fun x => x.2.newTarget

namespace Routing

/-- When the listener starts. -/
def initial (routingTables : HashMap PublicKey (HashMap ℕ PublicKey)) :
    Routing PublicKey Stream := ⟨∅, fun _ => [], routingTables, []⟩

/-- The new target in the most recent notice of a validator for an account. -/
def latest (s : Routing PublicKey Stream) (sender : PublicKey) (accountId : ℕ) :
    Option PublicKey :=
  latestOf s.received sender accountId

end Routing

/-! ## The votes of a message -/

section Votes

variable {k : ℕ} {sender x : PublicKey} {votes : MigrationVotes PublicKey}
  {notices : List (MigrationNotice PublicKey)} {key : ℕ × PublicKey}
  {notice u : MigrationNotice PublicKey}
  {acc : MigrationVotes PublicKey × List (MigrationNotice PublicKey)}

theorem voters_vote : (vote k sender acc notice).1.voters key =
    if key = notice.key then insert sender (acc.1.voters key) else acc.1.voters key := by
  unfold vote MigrationVotes.voters
  rw [HashMap.lookup_insert_eq]
  split
  · rename_i h
    rw [h]
    rfl
  · rfl

/-- The sender is the only new voter. -/
theorem mem_voters_foldl (h : x ∈ (notices.foldl (vote k sender) acc).1.voters key) :
    x ∈ acc.1.voters key ∨ x = sender ∧ ∃ notice ∈ notices, notice.key = key := by
  induction notices generalizing acc with
  | nil => exact Or.inl h
  | cons notice notices ih =>
      rcases ih h with hmem | ⟨rfl, n, hn, hkey⟩
      · rw [voters_vote] at hmem
        split at hmem
        · rename_i hkey
          rcases Finset.mem_insert.mp hmem with rfl | hmem
          · exact Or.inr ⟨rfl, notice, List.mem_cons_self, hkey.symm⟩
          · exact Or.inl hmem
        · exact Or.inl hmem
      · exact Or.inr ⟨rfl, n, List.mem_cons_of_mem _ hn, hkey⟩

/-- What is confirmed has enough voters. -/
theorem mem_confirmed_foldl (hu : u ∈ (notices.foldl (vote k sender) acc).2) :
    u ∈ acc.2 ∨ u ∈ notices ∧ ∃ entry : Finset PublicKey, k ≤ entry.card ∧
      ∀ x ∈ entry, x ∈ acc.1.voters u.key ∨ x = sender := by
  induction notices generalizing acc with
  | nil => exact Or.inl hu
  | cons notice notices ih =>
      rcases ih hu with hmem | ⟨hmem, entry, hcard, hentry⟩
      · unfold vote at hmem
        dsimp only at hmem
        split at hmem
        · rename_i hcard
          rcases List.mem_append.mp hmem with hmem | hmem
          · exact Or.inl hmem
          · rw [List.mem_singleton.mp hmem]
            refine Or.inr ⟨List.mem_cons_self, _, hcard, fun h hh => ?_⟩
            exact (Finset.mem_insert.mp hh).symm
        · exact Or.inl hmem
      · refine Or.inr ⟨List.mem_cons_of_mem _ hmem, entry, hcard, fun h hh => ?_⟩
        rcases hentry h hh with hold | hold
        · rw [voters_vote] at hold
          split at hold
          · exact (Finset.mem_insert.mp hold).symm
          · exact Or.inl hold
        · exact Or.inr hold

theorem mem_voters_foldl_erase {confirmed : List (MigrationNotice PublicKey)}
    (h : x ∈ (confirmed.foldl (fun votes notice => Finmap.erase notice.key votes) votes :
      MigrationVotes PublicKey).voters key) : x ∈ votes.voters key := by
  induction confirmed generalizing votes with
  | nil => exact h
  | cons notice confirmed ih =>
      have hmem := ih h
      unfold MigrationVotes.voters at hmem ⊢
      by_cases hkey : key = notice.key
      · rw [hkey, Finmap.lookup_erase] at hmem
        exact absurd hmem (Finset.notMem_empty _)
      · rwa [Finmap.lookup_erase_ne hkey] at hmem

theorem mem_voters_countVotes (h : x ∈ (countVotes k sender votes notices).1.voters key) :
    x ∈ votes.voters key ∨ x = sender ∧ ∃ notice ∈ notices, notice.key = key :=
  mem_voters_foldl (mem_voters_foldl_erase h)

theorem mem_confirmed_countVotes (hu : u ∈ (countVotes k sender votes notices).2) :
    u ∈ notices ∧ ∃ entry : Finset PublicKey, k ≤ entry.card ∧
      ∀ x ∈ entry, x ∈ votes.voters u.key ∨ x = sender :=
  (mem_confirmed_foldl hu).resolve_left List.not_mem_nil

end Votes

/-! ## The most recent notices -/

section Latest

variable {received : List (PublicKey × MigrationNotice PublicKey)} {sender h : PublicKey}
  {notices : List (MigrationNotice PublicKey)} {a : ℕ}

theorem latestOf_append : latestOf (received ++ notices.map fun n => (sender, n)) h a =
    if h = sender then
      ((notices.reverse.find? fun n => n.accountId = a).map MigrationNotice.newTarget).or
        (latestOf received h a)
    else latestOf received h a := by
  unfold latestOf
  rw [List.reverse_append, List.find?_append, ← List.map_reverse, List.find?_map]
  split
  · rename_i hs
    subst hs
    rw [Option.map_or, Option.map_map]
    simp [Function.comp_def]
  · rename_i hs
    have hnone : (notices.reverse.find? ((fun x => decide (x.1 = h ∧ x.2.accountId = a)) ∘
        fun n => (sender, n))) = none := by
      rw [List.find?_eq_none]
      intro n _
      simp [Ne.symm hs]
    rw [hnone]
    rfl

/-- A message that names one target for an account. -/
theorem latestOf_of_mem {notice : MigrationNotice PublicKey} (hmem : notice ∈ notices)
    (hone : ∀ n ∈ notices, n.accountId = notice.accountId → n.newTarget = notice.newTarget) :
    latestOf (received ++ notices.map fun n => (sender, n)) sender notice.accountId =
      some notice.newTarget := by
  rw [latestOf_append, if_pos rfl]
  cases hfind : notices.reverse.find? fun n => n.accountId = notice.accountId with
  | none =>
      rw [List.find?_eq_none] at hfind
      have := hfind notice (List.mem_reverse.mpr hmem)
      simp at this
  | some n =>
      have hn := List.mem_reverse.mp (List.mem_of_find?_eq_some hfind)
      have ha := List.find?_some hfind
      rw [Option.map_some, Option.some_or, hone n hn (by simpa using ha)]

/-- A message that does not name an account. -/
theorem latestOf_of_not_mem (hnone : ∀ n ∈ notices, n.accountId ≠ a) :
    latestOf (received ++ notices.map fun n => (sender, n)) h a = latestOf received h a := by
  rw [latestOf_append]
  have hfind : notices.reverse.find? (fun n => n.accountId = a) = none := by
    rw [List.find?_eq_none]
    intro n hn
    simpa using hnone n (List.mem_reverse.mp hn)
  rw [hfind]
  simp

end Latest

/-! ## Which routes change -/

section Routes

variable {l : Listener PublicKey Stream} {byzantine : Finset PublicKey}
  {s s' : Routing PublicKey Stream}

/-- No honest validator takes back a vote that still counts: when a notice comes in place of
    its most recent one for the account, which had another target, the vote for that target
    has been removed and no change to it is still to be written. No honest message names two
    targets for an account. -/
def KeepsVotes (l : Listener PublicKey Stream) (byzantine : Finset PublicKey)
    (s : Routing PublicKey Stream) : RoutingEvent PublicKey Stream → Prop
  | .receive stream notices => l.owner stream ∉ byzantine →
      (∀ n ∈ notices, ∀ n' ∈ notices, n'.accountId = n.accountId → n'.newTarget = n.newTarget) ∧
      ∀ n ∈ notices, ∀ target, s.latest (l.owner stream) n.accountId = some target →
        target ≠ n.newTarget → l.owner stream ∉ s.votes.voters (n.accountId, target) ∧
          ∀ other, ∀ u ∈ s.confirmed other, u.key ≠ (n.accountId, target)
  | .write _ _ => True

/-- The honest votes that count are the most recent ones, and what is confirmed is the most
    recent target of an honest validator. -/
structure Backed (byzantine : Finset PublicKey) (s : Routing PublicKey Stream) : Prop where
  votes : ∀ x ∉ byzantine, ∀ a target, x ∈ s.votes.voters (a, target) →
    s.latest x a = some target
  confirmed : ∀ stream, ∀ u ∈ s.confirmed stream, ∃ x ∉ byzantine,
    s.latest x u.accountId = some u.newTarget

omit [DecidableEq Stream] in
theorem backed_initial (routingTables : HashMap PublicKey (HashMap ℕ PublicKey)) :
    Backed byzantine (Routing.initial routingTables : Routing PublicKey Stream) where
  votes x _ a target h := by
    unfold Routing.initial MigrationVotes.voters at h
    simp at h
  confirmed stream u hu := by cases hu

omit [DecidableEq Stream] in
/-- What a message leaves of the most recent notices. -/
theorem latest_of_keeps {stream : Stream} {notices : List (MigrationNotice PublicKey)}
    (hkeep : KeepsVotes l byzantine s (.receive stream notices)) {x : PublicKey}
    (hx : x ∉ byzantine) {a : ℕ} {target : PublicKey} (hold : s.latest x a = some target)
    (hcounts : x ∈ s.votes.voters (a, target) ∨
      ∃ other, ∃ u ∈ s.confirmed other, u.key = (a, target)) :
    latestOf (s.received ++ notices.map fun n => (l.owner stream, n)) x a = some target := by
  by_cases hnone : ∀ n ∈ notices, n.accountId ≠ a
  · rw [latestOf_of_not_mem hnone]
    exact hold
  push Not at hnone
  obtain ⟨n, hn, rfl⟩ := hnone
  by_cases hsender : x = l.owner stream
  · subst hsender
    obtain ⟨hone, hold'⟩ := hkeep hx
    have htarget : target = n.newTarget := by
      by_contra hne
      obtain ⟨hvote, hconfirmed⟩ := hold' n hn target hold hne
      rcases hcounts with hcounts | ⟨other, u, hu, hkey⟩
      · exact hvote hcounts
      · exact hconfirmed other u hu hkey
    rw [latestOf_of_mem hn (hone n hn), htarget]
  · rw [latestOf_append, if_neg hsender]
    exact hold

theorem Backed.step {e : RoutingEvent PublicKey Stream}
    (hbyz : byzantine.card ≤ (l.numValidators - 1) / 3) (h : Backed byzantine s)
    (hkeep : KeepsVotes l byzantine s e) (hstep : l.step s e = some s') :
    Backed byzantine s' := by
  cases e with
  | receive stream notices =>
      unfold Listener.step at hstep
      dsimp only at hstep
      split at hstep
      · cases hstep
      obtain rfl := Option.some.inj hstep
      have hvotes : ∀ x ∉ byzantine, ∀ a target,
          x ∈ s.votes.voters (a, target) ∨
            (x = l.owner stream ∧ ∃ n ∈ notices, n.key = (a, target)) →
          latestOf (s.received ++ notices.map fun n => (l.owner stream, n)) x a =
            some target := by
        rintro x hx a target (hmem | ⟨rfl, n, hn, hkey⟩)
        · exact latest_of_keeps hkeep hx (h.votes x hx a target hmem) (Or.inl hmem)
        · obtain ⟨rfl, rfl⟩ := Prod.mk.inj hkey
          exact latestOf_of_mem hn ((hkeep hx).1 n hn)
      refine ⟨fun x hx a target hmem => hvotes x hx a target (mem_voters_countVotes hmem), ?_⟩
      intro other u hu
      dsimp only at hu
      by_cases hother : other = stream
      · subst hother
        rw [Function.update_self] at hu
        obtain ⟨hmem, entry, hcard, hentry⟩ :=
          mem_confirmed_countVotes (List.mem_of_mem_filter hu)
        -- one of `f + 1` voters is honest
        obtain ⟨x, hx, hbyz⟩ : ∃ x ∈ entry, x ∉ byzantine := by
          by_contra hall
          push Not at hall
          have := Finset.card_le_card (show entry ⊆ byzantine from hall)
          unfold fPlusOne at hcard
          omega
        exact ⟨x, hbyz, hvotes x hbyz _ _
          ((hentry x hx).imp_right fun hs => ⟨hs, u, hmem, rfl⟩)⟩
      · rw [Function.update_of_ne hother] at hu
        obtain ⟨x, hx, hlatest⟩ := h.confirmed other u hu
        exact ⟨x, hx, latest_of_keeps hkeep hx hlatest (Or.inr ⟨other, u, hu, rfl⟩)⟩
  | write stream region =>
      unfold Listener.step at hstep
      dsimp only at hstep
      split at hstep
      · cases hstep
      obtain rfl := Option.some.inj hstep
      refine ⟨h.votes, fun other u hu => ?_⟩
      dsimp only at hu
      by_cases hother : other = stream
      · subst hother
        rw [Function.update_self] at hu
        exact h.confirmed other u (List.mem_of_mem_filter hu)
      · rw [Function.update_of_ne hother] at hu
        exact h.confirmed other u hu

omit [LinearOrder PublicKey] in
theorem lookup_foldl_insert {updates : List (MigrationNotice PublicKey)}
    {table : HashMap ℕ PublicKey} {a : ℕ} {target : PublicKey}
    (h : (updates.foldl (fun t notice => Finmap.insert notice.accountId notice.newTarget t)
      table).lookup a = some target) :
    table.lookup a = some target ∨ ∃ u ∈ updates, u.accountId = a ∧ u.newTarget = target := by
  induction updates generalizing table with
  | nil => exact Or.inl h
  | cons notice updates ih =>
      rcases ih h with hl | ⟨u, hu, hkey⟩
      · rw [HashMap.lookup_insert_eq] at hl
        split at hl
        · rename_i ha
          exact Or.inr ⟨notice, List.mem_cons_self, ha.symm, Option.some.inj hl⟩
        · exact Or.inl hl
      · exact Or.inr ⟨u, List.mem_cons_of_mem _ hu, hkey⟩

/-- A route changes to a target that was confirmed. -/
theorem route_changed {e : RoutingEvent PublicKey Stream} (hstep : l.step s e = some s')
    {region target : PublicKey} {table table' : HashMap ℕ PublicKey} {a : ℕ}
    (ht : s.routingTables.lookup region = some table)
    (ht' : s'.routingTables.lookup region = some table')
    (hnew : table'.lookup a = some target) (hold : table.lookup a ≠ some target) :
    s'.received = s.received ∧
      ∃ stream, ∃ u ∈ s.confirmed stream, u.accountId = a ∧ u.newTarget = target := by
  cases e with
  | receive stream notices =>
      unfold Listener.step at hstep
      dsimp only at hstep
      split at hstep
      · cases hstep
      obtain rfl := Option.some.inj hstep
      obtain rfl := Option.some.inj (ht.symm.trans ht')
      exact absurd hnew hold
  | write stream region' =>
      unfold Listener.step at hstep
      dsimp only at hstep
      split at hstep
      · cases hstep
      obtain rfl := Option.some.inj hstep
      refine ⟨rfl, stream, ?_⟩
      dsimp only at ht'
      split at ht'
      · obtain rfl := Option.some.inj (ht.symm.trans ht')
        exact absurd hnew hold
      · rename_i t hlookup
        rw [HashMap.lookup_insert_eq] at ht'
        split at ht'
        · rename_i hr
          subst hr
          obtain rfl := Option.some.inj (ht.symm.trans hlookup)
          rw [← Option.some.inj ht'] at hnew
          rcases lookup_foldl_insert hnew with hl | ⟨u, hu, hkey⟩
          · exact absurd hl hold
          · exact ⟨u, List.mem_of_mem_filter hu, hkey⟩
        · obtain rfl := Option.some.inj (ht.symm.trans ht')
          exact absurd hnew hold

/-- Whenever the route of an account changes, the new target is that of the most recent
    notice of an honest validator, in every run in which no honest validator takes back a
    vote that still counts. -/
theorem routes_current (l : Listener PublicKey Stream) (byzantine : Finset PublicKey)
    (hbyz : byzantine.card ≤ (l.numValidators - 1) / 3)
    (routingTables : HashMap PublicKey (HashMap ℕ PublicKey)) (s s' : Routing PublicKey Stream)
    (hs : Reaches l.step (KeepsVotes l byzantine) (.initial routingTables) s)
    (e : RoutingEvent PublicKey Stream) (hstep : l.step s e = some s')
    (region target : PublicKey) (table table' : HashMap ℕ PublicKey) (a : ℕ)
    (ht : s.routingTables.lookup region = some table)
    (ht' : s'.routingTables.lookup region = some table')
    (hnew : table'.lookup a = some target) (hold : table.lookup a ≠ some target) :
    ∃ x ∉ byzantine, s'.latest x a = some target := by
  have hbacked : Backed byzantine s :=
    hs.invariant (fun _ _ _ h hkeep hstep => h.step hbyz hkeep hstep)
      (backed_initial routingTables)
  obtain ⟨hreceived, stream, u, hu, rfl, rfl⟩ := route_changed hstep ht ht' hnew hold
  obtain ⟨x, hx, hlatest⟩ := hbacked.confirmed stream u hu
  refine ⟨x, hx, ?_⟩
  unfold Routing.latest at *
  rw [hreceived, hlatest]

end Routes

/-! ## Four validators

Validator 3 is the Byzantine one. Each sends on the stream of its number. -/

namespace Stale

def listener : Listener (Fin 4) (Fin 4) := ⟨4, [(0, 10, 0)], id⟩

def routingTables : HashMap (Fin 4) (HashMap ℕ (Fin 4)) := (∅ : HashMap _ _).insert 0 ∅

/-- Validator 0 moves account 7 to 1 and then to 2, and only then validator 3 votes for 1. -/
def stale : List (RoutingEvent (Fin 4) (Fin 4)) :=
  [.receive 0 [⟨7, 1⟩], .receive 0 [⟨7, 2⟩], .receive 3 [⟨7, 1⟩]]

/-- Validator 3 votes first. -/
def timely : List (RoutingEvent (Fin 4) (Fin 4)) := [.receive 3 [⟨7, 1⟩], .receive 0 [⟨7, 1⟩]]

end Stale

open Stale

/-- Account 7 is routed to 1, which no honest validator asks for any more. -/
theorem not_routes_current : ∃ s s' table table',
    exec listener.step (.initial routingTables) stale = some s ∧
    listener.step s (.write 3 0) = some s' ∧
    s.routingTables.lookup 0 = some table ∧ s'.routingTables.lookup 0 = some table' ∧
    table.lookup 7 ≠ some 1 ∧ table'.lookup 7 = some 1 ∧
    ∀ x ∉ ({3} : Finset (Fin 4)), s'.latest x 7 ≠ some 1 :=
  ⟨_, _, _, _, rfl, rfl, rfl, rfl, by decide, by decide, by decide⟩

theorem routes_current_sample : ∃ s s',
    exec listener.step (.initial routingTables) timely = some s ∧
    listener.step s (.write 0 0) = some s' ∧
    ∃ x ∉ ({3} : Finset (Fin 4)), s'.latest x 7 = some 1 := by
  obtain ⟨s, s', table, table', hrun, hstep, ht, ht', hold, hnew⟩ : ∃ s s' table table',
      exec listener.step (.initial routingTables) timely = some s ∧
      listener.step s (.write 0 0) = some s' ∧
      s.routingTables.lookup 0 = some table ∧ s'.routingTables.lookup 0 = some table' ∧
      table.lookup 7 ≠ some 1 ∧ table'.lookup 7 = some 1 :=
    ⟨_, _, _, _, rfl, rfl, rfl, rfl, by decide, by decide⟩
  refine ⟨s, s', hrun, hstep, routes_current listener {3} (by decide) routingTables s s'
    (reaches_of_exec hrun ⟨?_, fun s₁ h₁ => ⟨?_, fun _ _ => trivial⟩⟩) (.write 0 0) hstep 0 1
    table table' 7 ht ht' hnew hold⟩
  · exact fun h => absurd (by decide) h
  · obtain rfl := Option.some.inj h₁
    intro _
    refine ⟨by decide, fun n hn target hlatest => ?_⟩
    -- validator 0 has not sent anything yet
    obtain rfl := List.mem_singleton.mp hn
    cases hlatest

end DagBft.Node
