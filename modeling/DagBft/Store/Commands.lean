/-
  The storage task (`store/src/lib.rs`), backed by RocksDB or by a `HashMap`, and what its
  clients are told.

  A client is the sender of the channel that its answer goes to; `read` and `notify_read` make
  a new channel for each call. The database may fail. The `HashMap` does not, and it is only
  there that keys are deleted.

  `replied_iff`: which answers have been sent, as a function of the commands. A `notify_read`
  that finds nothing is answered by the first write to its key that comes after it.
-/
import Mathlib

namespace DagBft.Storage

variable (Key Value Sender : Type)

inductive StoreCommand
  | write (key : Key) (value : Value)
  | read (key : Key) (sender : Sender)
  | notifyRead (key : Key) (sender : Sender)
  | delete (key : Key)

/-- `StoreResult`, for errors of the database that nobody looks into. -/
abbrev StoreResult (α : Type) := Except Unit α

/-- What is sent to a client. -/
inductive Reply
  | read (result : StoreResult (Option Value))
  | notifyRead (result : StoreResult Value)

/-- `Store::new` or `Store::new_in_memory`. -/
inductive Backend
  | rocksdb
  | memory
deriving DecidableEq

/-- A command, and whether the database fails on it. -/
structure Call where
  command : StoreCommand Key Value Sender
  fails : Bool

structure Store where
  data : Key → Option Value
  /-- The clients that wait for a key, in the order in which they came. -/
  obligations : Key → List Sender
  replies : List (Sender × Reply Value)

variable {Key Value Sender} [DecidableEq Key]

namespace Store

def initial : Store Key Value Sender := ⟨fun _ => none, fun _ => [], []⟩

def reply (s : Store Key Value Sender) (senders : List Sender) (r : Reply Value) :
    Store Key Value Sender :=
  { s with replies := s.replies ++ senders.map fun sender => (sender, r) }

end Store

/-- Whether the database fails. -/
def Call.failing (b : Backend) (c : Call Key Value Sender) : Bool := b = .rocksdb && c.fails

/-- `get`. -/
def get (data : Key → Option Value) (failing : Bool) (key : Key) : StoreResult (Option Value) :=
  if failing then .error () else .ok (data key)

/-- What a command does to the data. An error of `put` is ignored. -/
def put (b : Backend) (data : Key → Option Value) (c : Call Key Value Sender) :
    Key → Option Value :=
  match c.command with
  | .write key value => if c.failing b then data else Function.update data key (some value)
  | .delete key =>
      match b with
      -- No-op for RocksDB.
      | .rocksdb => data
      | .memory => Function.update data key none
  | _ => data

/-- One iteration of the loop. -/
def serve (b : Backend) (s : Store Key Value Sender) (c : Call Key Value Sender) :
    Store Key Value Sender :=
  match c.command with
  | .write key value =>
      { s with
        data := put b s.data c
        obligations := Function.update s.obligations key []
        replies := s.replies ++
          (s.obligations key).map fun sender => (sender, .notifyRead (.ok value)) }
  | .read key sender => s.reply [sender] (.read (get s.data (c.failing b) key))
  | .notifyRead key sender =>
      match get s.data (c.failing b) key with
      | .ok none =>
          { s with
            obligations := Function.update s.obligations key (s.obligations key ++ [sender]) }
      | .ok (some value) => s.reply [sender] (.notifyRead (.ok value))
      | .error e => s.reply [sender] (.notifyRead (.error e))
  | .delete _ => { s with data := put b s.data c }

/-- The state after some commands. -/
def run (b : Backend) (calls : List (Call Key Value Sender)) : Store Key Value Sender :=
  calls.foldl (serve b) Store.initial

/-! ## What clients are promised -/

/-- The data after some commands. -/
def content (b : Backend) (calls : List (Call Key Value Sender)) : Key → Option Value :=
  calls.foldl (put b) fun _ => none

/-- The value that a command writes to a key. -/
def Call.writes (key : Key) (c : Call Key Value Sender) : Option Value :=
  match c.command with
  | .write key' value => if key' = key then some value else none
  | _ => none

/-- The client that a command is to answer. -/
def Call.sender (c : Call Key Value Sender) : Option Sender :=
  match c.command with
  | .read _ sender | .notifyRead _ sender => some sender
  | _ => none

/-- A client has asked for a key with `notify_read`, which was not there, and nothing has been
    written to it since. -/
def Waits (b : Backend) (calls : List (Call Key Value Sender)) (key : Key) (sender : Sender) :
    Prop :=
  ∃ pre c post, calls = pre ++ c :: post ∧ c.command = .notifyRead key sender ∧
    get (content b pre) (c.failing b) key = .ok none ∧ ∀ c' ∈ post, c'.writes key = none

/-- The answer to a command that is answered at once. -/
def answer (b : Backend) (data : Key → Option Value) (c : Call Key Value Sender) :
    Option (Reply Value) :=
  match c.command with
  | .read key _ => some (.read (get data (c.failing b) key))
  | .notifyRead key _ =>
      match get data (c.failing b) key with
      | .ok none => none
      | .ok (some value) => some (.notifyRead (.ok value))
      | .error e => some (.notifyRead (.error e))
  | _ => none

/-- What a client is told: what is there when it asks, or the first value that is written
    after it has asked in vain. -/
def Replied (b : Backend) (calls : List (Call Key Value Sender)) (sender : Sender)
    (r : Reply Value) : Prop :=
  (∃ pre c post, calls = pre ++ c :: post ∧ c.sender = some sender ∧
    answer b (content b pre) c = some r) ∨
  ∃ pre c post key value, calls = pre ++ c :: post ∧ Waits b pre key sender ∧
    c.writes key = some value ∧ r = .notifyRead (.ok value)

variable {b : Backend} {calls : List (Call Key Value Sender)} {c : Call Key Value Sender}
  {key : Key} {sender : Sender} {r : Reply Value}

/-! ## One more command -/

/-- Where an element stands in a list with one more at its end. -/
theorem snoc_eq_append_cons_iff {α : Type} {l pre post : List α} {x y : α} :
    l ++ [x] = pre ++ y :: post ↔
      (l = pre ∧ x = y ∧ post = []) ∨ ∃ post', l = pre ++ y :: post' ∧ post = post' ++ [x] := by
  rcases post.eq_nil_or_concat with rfl | ⟨post', z, rfl⟩
  · constructor
    · intro h
      obtain ⟨hl, hx⟩ := List.append_inj' h rfl
      exact Or.inl ⟨hl, List.cons.inj hx |>.1, rfl⟩
    · rintro (⟨rfl, rfl, -⟩ | ⟨post', -, hnil⟩)
      · rfl
      · simp at hnil
  · have hsnoc : pre ++ y :: (post' ++ [z]) = (pre ++ y :: post') ++ [z] := by simp
    rw [List.concat_eq_append, hsnoc]
    constructor
    · intro h
      obtain ⟨hl, hx⟩ := List.append_inj' h rfl
      exact Or.inr ⟨post', hl, by rw [(List.cons.inj hx).1]⟩
    · rintro (⟨-, -, hnil⟩ | ⟨post'', hl, hpost⟩)
      · simp at hnil
      · obtain ⟨hp, hx⟩ := List.append_inj' hpost rfl
        rw [hl, hp, (List.cons.inj hx).1]

theorem run_snoc : run b (calls ++ [c]) = serve b (run b calls) c := by
  unfold run
  rw [List.foldl_append]
  rfl

theorem serve_data (s : Store Key Value Sender) : (serve b s c).data = put b s.data c := by
  obtain ⟨command, fails⟩ := c
  cases command with
  | notifyRead key sender =>
      unfold serve
      dsimp only
      split <;> rfl
  | _ => rfl

theorem data_run (b : Backend) (calls : List (Call Key Value Sender)) :
    (run b calls).data = content b calls := by
  induction calls using List.reverseRecOn with
  | nil => rfl
  | append_singleton calls c ih =>
      unfold content at ih ⊢
      rw [run_snoc, serve_data, ih, List.foldl_append]
      rfl

/-- Who waits for a key after a command. -/
theorem mem_obligations_serve {s : Store Key Value Sender} :
    sender ∈ (serve b s c).obligations key ↔
      (sender ∈ s.obligations key ∧ c.writes key = none) ∨
        c.command = .notifyRead key sender ∧ get s.data (c.failing b) key = .ok none := by
  obtain ⟨command, fails⟩ := c
  cases command with
  | write key' value =>
      by_cases hk : key' = key
      · subst hk
        simp [serve, Call.writes]
      · simp [serve, Call.writes, hk, Function.update_of_ne (Ne.symm hk)]
  | read key' sender' => simp [serve, Call.writes, Store.reply]
  | delete key' => simp [serve, Call.writes]
  | notifyRead key' sender' =>
      unfold serve
      dsimp only
      cases hget : get s.data (Call.failing b ⟨.notifyRead key' sender', fails⟩) key' with
      | error e =>
          refine ⟨fun h => Or.inl ⟨h, rfl⟩, ?_⟩
          rintro (⟨h, -⟩ | ⟨hc, hnone⟩)
          · exact h
          · obtain ⟨rfl, rfl⟩ := StoreCommand.notifyRead.inj hc
            rw [hget] at hnone
            cases hnone
      | ok o =>
          cases o with
          | some value =>
              refine ⟨fun h => Or.inl ⟨h, rfl⟩, ?_⟩
              rintro (⟨h, -⟩ | ⟨hc, hnone⟩)
              · exact h
              · obtain ⟨rfl, rfl⟩ := StoreCommand.notifyRead.inj hc
                rw [hget] at hnone
                cases hnone
          | none =>
              by_cases hk : key' = key
              · subst hk
                simp [Call.writes, hget, eq_comm]
              · simp [Call.writes, hk, Function.update_of_ne (Ne.symm hk)]

/-- Which answers have been sent after a command. -/
theorem mem_replies_serve {s : Store Key Value Sender} :
    (sender, r) ∈ (serve b s c).replies ↔ (sender, r) ∈ s.replies ∨
      (c.sender = some sender ∧ answer b s.data c = some r) ∨
      ∃ key value, sender ∈ s.obligations key ∧ c.writes key = some value ∧
        r = .notifyRead (.ok value) := by
  obtain ⟨command, fails⟩ := c
  cases command with
  | write key' value => simp [serve, Call.writes, Call.sender, eq_comm]
  | read key' sender' => simp [serve, Call.writes, Call.sender, answer, Store.reply, eq_comm]
  | delete key' => simp [serve, Call.writes, Call.sender]
  | notifyRead key' sender' =>
      unfold serve
      dsimp only
      cases hget : get s.data (Call.failing b ⟨.notifyRead key' sender', fails⟩) key' with
      | error e => simp [Call.writes, Call.sender, answer, hget, Store.reply, eq_comm]
      | ok o =>
          cases o with
          | some value => simp [Call.writes, Call.sender, answer, hget, Store.reply, eq_comm]
          | none => simp [Call.writes, Call.sender, answer, hget]

theorem waits_snoc : Waits b (calls ++ [c]) key sender ↔
    (Waits b calls key sender ∧ c.writes key = none) ∨
      c.command = .notifyRead key sender ∧ get (content b calls) (c.failing b) key = .ok none := by
  constructor
  · rintro ⟨pre, c', post, hsplit, hc, hget, hpost⟩
    rcases snoc_eq_append_cons_iff.mp hsplit with ⟨rfl, rfl, -⟩ | ⟨post', hl, rfl⟩
    · exact Or.inr ⟨hc, hget⟩
    · exact Or.inl ⟨⟨pre, c', post', hl, hc, hget, fun x hx => hpost x (List.mem_append_left _ hx)⟩,
        hpost c (by simp)⟩
  · rintro (⟨⟨pre, c', post, rfl, hc, hget, hpost⟩, hw⟩ | ⟨hc, hget⟩)
    · refine ⟨pre, c', post ++ [c], by simp, hc, hget, fun x hx => ?_⟩
      rcases List.mem_append.mp hx with hx | hx
      · exact hpost x hx
      · rwa [List.mem_singleton.mp hx]
    · exact ⟨calls, c, [], rfl, hc, hget, by simp⟩

theorem replied_snoc : Replied b (calls ++ [c]) sender r ↔ Replied b calls sender r ∨
    (c.sender = some sender ∧ answer b (content b calls) c = some r) ∨
    ∃ key value, Waits b calls key sender ∧ c.writes key = some value ∧
      r = .notifyRead (.ok value) := by
  constructor
  · rintro (⟨pre, c', post, hsplit, hs, ha⟩ | ⟨pre, c', post, key, value, hsplit, hw, hv, hr⟩)
    · rcases snoc_eq_append_cons_iff.mp hsplit with ⟨rfl, rfl, -⟩ | ⟨post', hl, -⟩
      · exact Or.inr (Or.inl ⟨hs, ha⟩)
      · exact Or.inl (Or.inl ⟨pre, c', post', hl, hs, ha⟩)
    · rcases snoc_eq_append_cons_iff.mp hsplit with ⟨rfl, rfl, -⟩ | ⟨post', hl, -⟩
      · exact Or.inr (Or.inr ⟨key, value, hw, hv, hr⟩)
      · exact Or.inl (Or.inr ⟨pre, c', post', key, value, hl, hw, hv, hr⟩)
  · rintro (hr | ⟨hs, ha⟩ | ⟨key, value, hw, hv, hr⟩)
    · rcases hr with ⟨pre, c', post, rfl, hrest⟩ | ⟨pre, c', post, key, value, rfl, hrest⟩
      · exact Or.inl ⟨pre, c', post ++ [c], by simp, hrest⟩
      · exact Or.inr ⟨pre, c', post ++ [c], key, value, by simp, hrest⟩
    · exact Or.inl ⟨calls, c, [], rfl, hs, ha⟩
    · exact Or.inr ⟨calls, c, [], key, value, rfl, hw, hv, hr⟩

/-! ## All commands -/

/-- Who waits. -/
theorem mem_obligations_run (b : Backend) (calls : List (Call Key Value Sender)) (key : Key)
    (sender : Sender) : sender ∈ (run b calls).obligations key ↔ Waits b calls key sender := by
  induction calls using List.reverseRecOn with
  | nil => simp [run, Store.initial, Waits]
  | append_singleton calls c ih =>
      rw [run_snoc, mem_obligations_serve, waits_snoc, ih, data_run]

/-- What has been answered. -/
theorem mem_replies_run (b : Backend) (calls : List (Call Key Value Sender)) (sender : Sender)
    (r : Reply Value) : (sender, r) ∈ (run b calls).replies ↔ Replied b calls sender r := by
  induction calls using List.reverseRecOn with
  | nil => simp [run, Store.initial, Replied]
  | append_singleton calls c ih =>
      rw [run_snoc, mem_replies_serve, replied_snoc, ih, data_run]
      simp only [mem_obligations_run]

/-! ## Once -/

/-- The clients that have asked. -/
def asked (calls : List (Call Key Value Sender)) : List Sender := calls.filterMap Call.sender

/-- Every client that has asked has been answered once, or waits once. -/
structure Once (clients : List Sender) (s : Store Key Value Sender) : Prop where
  replied : (s.replies.map Prod.fst).Nodup
  waiting : ∀ key, (s.obligations key).Nodup
  apart : ∀ key key' sender, sender ∈ s.obligations key → sender ∈ s.obligations key' → key = key'
  disjoint : ∀ key sender, sender ∈ s.obligations key → sender ∉ s.replies.map Prod.fst
  kept : ∀ sender, sender ∈ clients ↔
    sender ∈ s.replies.map Prod.fst ∨ ∃ key, sender ∈ s.obligations key

variable {clients : List Sender} {s : Store Key Value Sender}

omit [DecidableEq Key] in
/-- A client that has not asked before is answered. -/
theorem Once.reply (h : Once clients s) (hnew : sender ∉ clients) (r : Reply Value) :
    Once (clients ++ [sender]) (s.reply [sender] r) := by
  have hnot := fun hr => hnew ((h.kept sender).mpr hr)
  have hreplies : (s.reply [sender] r).replies.map Prod.fst =
      s.replies.map Prod.fst ++ [sender] := by simp [Store.reply]
  refine ⟨?_, h.waiting, h.apart, fun key x hx => ?_, fun x => ?_⟩
  · rw [hreplies]
    exact List.nodup_append.mpr ⟨h.replied, List.nodup_singleton _, fun x hx y hy hxy =>
      hnot (Or.inl (List.mem_singleton.mp hy ▸ hxy ▸ hx))⟩
  · rw [hreplies, List.mem_append, List.mem_singleton]
    rintro (hin | rfl)
    · exact h.disjoint key x hx hin
    · exact hnot (Or.inr ⟨key, hx⟩)
  · rw [hreplies, List.mem_append, List.mem_append, h.kept x, or_right_comm]
    rfl

/-- A client that has not asked before waits. -/
theorem Once.wait (h : Once clients s) (hnew : sender ∉ clients) (key : Key) :
    Once (clients ++ [sender]) { s with
      obligations := Function.update s.obligations key (s.obligations key ++ [sender]) } := by
  have hnot := fun hr => hnew ((h.kept sender).mpr hr)
  have hmem : ∀ key' x, x ∈ Function.update s.obligations key (s.obligations key ++ [sender]) key' ↔
      x ∈ s.obligations key' ∨ key' = key ∧ x = sender := by
    intro key' x
    by_cases hk : key' = key
    · subst hk
      simp
    · simp [hk]
  refine ⟨h.replied, fun key' => ?_, fun k k' x hx hx' => ?_, fun k x hx => ?_, fun x => ?_⟩
  · by_cases hk : key' = key
    · subst hk
      simp only [Function.update_self]
      exact List.nodup_append.mpr ⟨h.waiting _, List.nodup_singleton _, fun x hx y hy hxy =>
        hnot (Or.inr ⟨_, List.mem_singleton.mp hy ▸ hxy ▸ hx⟩)⟩
    · simp only [Function.update_of_ne hk]
      exact h.waiting key'
  · rcases (hmem k x).mp hx with hin | ⟨rfl, rfl⟩ <;>
      rcases (hmem k' x).mp hx' with hin' | ⟨rfl, hs⟩
    · exact h.apart k k' x hin hin'
    · exact absurd (Or.inr ⟨k, hs ▸ hin⟩) hnot
    · exact absurd (Or.inr ⟨k', hin'⟩) hnot
    · rfl
  · rcases (hmem k x).mp hx with hin | ⟨-, rfl⟩
    · exact h.disjoint k x hin
    · exact fun hr => hnot (Or.inl hr)
  · rw [List.mem_append, List.mem_singleton, h.kept x]
    constructor
    · rintro ((hr | ⟨k, hk⟩) | rfl)
      · exact Or.inl hr
      · exact Or.inr ⟨k, (hmem k x).mpr (Or.inl hk)⟩
      · exact Or.inr ⟨key, (hmem key x).mpr (Or.inr ⟨rfl, rfl⟩)⟩
    · rintro (hr | ⟨k, hk⟩)
      · exact Or.inl (Or.inl hr)
      · rcases (hmem k x).mp hk with hin | ⟨-, rfl⟩
        · exact Or.inl (Or.inr ⟨k, hin⟩)
        · exact Or.inr rfl

/-- Those who wait for a key are answered. -/
theorem Once.flush (h : Once clients s) (key : Key) (r : Reply Value) :
    Once clients { s with
      obligations := Function.update s.obligations key []
      replies := s.replies ++ (s.obligations key).map fun sender => (sender, r) } := by
  have hmem : ∀ key' x, x ∈ Function.update s.obligations key [] key' ↔
      x ∈ s.obligations key' ∧ key' ≠ key := by
    intro key' x
    by_cases hk : key' = key
    · subst hk
      simp
    · simp [hk]
  have hreplies : (s.replies ++ (s.obligations key).map fun sender => (sender, r)).map Prod.fst =
      s.replies.map Prod.fst ++ s.obligations key := by
    simp [Function.comp_def]
  refine ⟨?_, fun key' => ?_, fun k k' x hx hx' => ?_, fun k x hx => ?_, fun x => ?_⟩
  · rw [hreplies]
    exact List.nodup_append.mpr ⟨h.replied, h.waiting key, fun x hx y hy hxy =>
      h.disjoint key y hy (hxy ▸ hx)⟩
  · by_cases hk : key' = key
    · subst hk
      simp only [Function.update_self]
      exact List.nodup_nil
    · simp only [Function.update_of_ne hk]
      exact h.waiting key'
  · exact h.apart k k' x ((hmem k x).mp hx).1 ((hmem k' x).mp hx').1
  · obtain ⟨hin, hne⟩ := (hmem k x).mp hx
    rw [hreplies, List.mem_append]
    rintro (hr | hr)
    · exact h.disjoint k x hin hr
    · exact hne (h.apart k key x hin hr)
  · rw [hreplies, List.mem_append, h.kept x]
    constructor
    · rintro (hr | ⟨k, hk⟩)
      · exact Or.inl (Or.inl hr)
      · by_cases hkey : k = key
        · exact Or.inl (Or.inr (hkey ▸ hk))
        · exact Or.inr ⟨k, (hmem k x).mpr ⟨hk, hkey⟩⟩
    · rintro ((hr | hr) | ⟨k, hk⟩)
      · exact Or.inl hr
      · exact Or.inr ⟨key, hr⟩
      · exact Or.inr ⟨k, ((hmem k x).mp hk).1⟩

theorem once_run (b : Backend) (calls : List (Call Key Value Sender)) (h : (asked calls).Nodup) :
    Once (asked calls) (run b calls) := by
  induction calls using List.reverseRecOn with
  | nil => exact ⟨List.nodup_nil, fun _ => List.nodup_nil, by simp [run, Store.initial],
      by simp [run, Store.initial], by simp [run, Store.initial, asked]⟩
  | append_singleton calls c ih =>
      have hasked : asked (calls ++ [c]) = asked calls ++ c.sender.toList := by
        unfold asked
        rw [List.filterMap_append]
        cases hs : c.sender <;> simp [hs]
      rw [hasked] at h ⊢
      have hold := ih (List.nodup_append.mp h).1
      have hnew : ∀ sender, c.sender = some sender → sender ∉ asked calls := by
        rintro sender hs hin
        rw [hs] at h
        exact (List.nodup_append.mp h).2.2 sender hin sender (by simp) rfl
      rw [run_snoc]
      obtain ⟨command, fails⟩ := c
      cases command with
      | write key value =>
          rw [show Call.sender ⟨.write key value, fails⟩ = none from rfl, Option.toList_none,
            List.append_nil]
          have hflush := hold.flush key (.notifyRead (.ok value))
          exact { hflush with }
      | read key sender => exact hold.reply (hnew sender rfl) _
      | delete key =>
          rw [show Call.sender ⟨.delete key, fails⟩ = none from rfl, Option.toList_none,
            List.append_nil]
          exact { hold with }
      | notifyRead key sender =>
          unfold serve
          dsimp only
          split
          · exact hold.wait (hnew sender rfl) key
          · exact hold.reply (hnew sender rfl) _
          · exact hold.reply (hnew sender rfl) _

/-- What clients of the storage are told, each of whom asks once: exactly what `Replied` says,
    one answer each, and who has asked and has no answer waits for the next write. -/
theorem replied_iff (b : Backend) (calls : List (Call Key Value Sender))
    (h : (asked calls).Nodup) :
    (∀ sender r, (sender, r) ∈ (run b calls).replies ↔ Replied b calls sender r) ∧
      ((run b calls).replies.map Prod.fst).Nodup ∧
      ∀ sender ∈ asked calls, (¬ ∃ r, Replied b calls sender r) →
        ∃ key, sender ∈ (run b calls).obligations key ∧ Waits b calls key sender := by
  have honce := once_run b calls h
  refine ⟨mem_replies_run b calls, honce.replied, fun sender hs hnot => ?_⟩
  rcases (honce.kept sender).mp hs with hr | ⟨key, hk⟩
  · obtain ⟨⟨x, r⟩, hmem, rfl⟩ := List.mem_map.mp hr
    exact absurd ⟨r, (mem_replies_run b calls x r).mp hmem⟩ hnot
  · exact ⟨key, hk, (mem_obligations_run b calls key sender).mp hk⟩

/-- Client 1 waits for key 7, which is written and deleted before client 2 asks for it. -/
def sampleCalls : List (Call ℕ ℕ ℕ) :=
  [⟨.notifyRead 7 1, false⟩, ⟨.write 7 70, false⟩, ⟨.delete 7, false⟩, ⟨.notifyRead 7 2, false⟩]

theorem replied_iff_sample :
    (∀ sender r, (sender, r) ∈ (run .memory sampleCalls).replies ↔
        Replied .memory sampleCalls sender r) ∧
      ((run .memory sampleCalls).replies.map Prod.fst).Nodup ∧
      ∀ sender ∈ asked sampleCalls, (¬ ∃ r, Replied .memory sampleCalls sender r) →
        ∃ key, sender ∈ (run .memory sampleCalls).obligations key ∧
          Waits .memory sampleCalls key sender :=
  replied_iff .memory sampleCalls (by decide)

end DagBft.Storage
