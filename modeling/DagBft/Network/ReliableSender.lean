/-
  The sender that re-transmits until it gets an ACK (`network/src/reliable_sender.rs`): the
  task of one connection, with the channel it reads from and the peer it talks to.

  The peer is that of `network/src/receiver.rs`: it reads the frames of each TCP stream in
  order and acknowledges each of them, and the streams are read by tasks of their own. What
  was written to a stream that has failed may still be read, or may be lost.

  `bookkeeping`: in every state that is reached, a message that was neither cancelled nor
  acknowledged is in one place, the places are in the order of submission, no message comes
  before an earlier one that was not cancelled, and what is resolved was received.
-/
import DagBft.Lib.Runs
import Mathlib.Data.Finset.Insert
import Mathlib.Data.List.TakeDrop
import Mathlib.Logic.Function.Basic

namespace DagBft.Network

variable (Bytes : Type)

/-- A message, with the channel of its cancel handler. The channels are numbered in the
    order in which the messages are submitted. -/
structure InnerMessage where
  data : Bytes
  cancelHandler : ℕ
deriving DecidableEq

/-- What the task is doing. -/
inductive Phase
  /-- In `TcpStream::connect`. -/
  | connecting
  /-- In the loop that waits before it connects again. -/
  | waiting
  /-- In `keep_alive`, with the message that is being written and those that wait for an
      ACK. -/
  | connected (stream : ℕ) (sending : Option (InnerMessage Bytes))
      (pendingReplies : List (InnerMessage Bytes))

/-- The two directions of a TCP stream. -/
structure TcpStream where
  /-- The frames that have been written. -/
  sent : List (InnerMessage Bytes)
  /-- How many of them the peer has read, and acknowledged. -/
  delivered : ℕ
  /-- How many ACKs have been read. -/
  acked : ℕ

/-- The task, its channel, and the rest of the world. -/
structure Connection where
  /-- Channel from which the connection receives its commands. -/
  receiver : List (InnerMessage Bytes)
  /-- Buffer keeping all messages that need to be re-transmitted. -/
  buffer : List (InnerMessage Bytes)
  phase : Phase Bytes
  /-- How many messages have been submitted. -/
  submitted : ℕ
  /-- The cancel handlers that have been dropped. -/
  closed : Finset ℕ
  /-- The messages that an ACK was taken for. -/
  acknowledged : List ℕ
  /-- The cancel handlers that have been notified. -/
  resolved : List ℕ
  streams : ℕ → TcpStream Bytes
  opened : ℕ
  /-- The frames that the peer has read, of all streams. -/
  received : List (InnerMessage Bytes)

inductive ConnectionEvent
  /-- A call of `send`. -/
  | submit (data : Bytes)
  /-- The caller drops a cancel handler. -/
  | cancel (cancelHandler : ℕ)
  | connectOk
  | connectFail
  /-- The delay before the next attempt to connect is over. -/
  | timer
  /-- The channel is drained into the buffer between two attempts. -/
  | drain
  /-- The first message of the buffer is taken. -/
  | pop
  | sendOk
  /-- Writing fails, possibly after the whole frame was written. -/
  | sendFail (reached : Bool)
  /-- A message comes from the channel while connected. -/
  | recv
  /-- A response comes. -/
  | ack
  /-- The stream is closed or cannot be read. -/
  | disconnect
  /-- The peer reads the next frame of a stream and acknowledges it. -/
  | receive (stream : ℕ)

variable {Bytes}

/-- The capacity of the channel. -/
def channelCapacity : ℕ := 1000

def TcpStream.new : TcpStream Bytes := ⟨[], 0, 0⟩

def TcpStream.write (t : TcpStream Bytes) (message : InnerMessage Bytes) : TcpStream Bytes :=
  { t with sent := t.sent ++ [message] }

namespace Connection

def initial : Connection Bytes where
  receiver := []
  buffer := []
  phase := .connecting
  submitted := 0
  closed := ∅
  acknowledged := []
  resolved := []
  streams _ := .new
  opened := 0
  received := []

/-- The messages that the task holds outside of the buffer. -/
def inFlight (s : Connection Bytes) : List (InnerMessage Bytes) :=
  match s.phase with
  | .connected _ sending pendingReplies => pendingReplies ++ sending.toList
  | _ => []

/-- The end of `keep_alive`: what has no ACK goes back into the buffer. -/
def reset (s : Connection Bytes) : Connection Bytes :=
  { s with phase := .connecting, buffer := s.inFlight ++ s.buffer }

/-- `none` where the event cannot happen. While the buffer is not empty, a connected task
    only writes. -/
def step (s : Connection Bytes) : ConnectionEvent Bytes → Option (Connection Bytes)
  | .submit data =>
      if s.receiver.length < channelCapacity then
        some
          { s with
            receiver := s.receiver ++ [⟨data, s.submitted⟩]
            submitted := s.submitted + 1 }
      else none
  | .cancel cancelHandler =>
      if cancelHandler < s.submitted then some { s with closed := insert cancelHandler s.closed }
      else none
  | .connectOk => match s.phase with
      | .connecting =>
          some { s with phase := .connected s.opened none [], opened := s.opened + 1 }
      | _ => none
  | .connectFail => match s.phase with
      | .connecting => some { s with phase := .waiting }
      | _ => none
  | .timer => match s.phase with
      | .waiting => some { s with phase := .connecting }
      | _ => none
  | .drain => match s.phase, s.receiver with
      | .waiting, message :: receiver =>
          some
            { s with
              receiver := receiver
              buffer := (s.buffer ++ [message]).filter fun m => m.cancelHandler ∉ s.closed }
      | _, _ => none
  | .pop => match s.phase, s.buffer with
      | .connected stream none pendingReplies, message :: buffer =>
          -- Skip messages that have been cancelled.
          if message.cancelHandler ∈ s.closed then some { s with buffer := buffer }
          else some
            { s with phase := .connected stream (some message) pendingReplies, buffer := buffer }
      | _, _ => none
  | .sendOk => match s.phase with
      | .connected stream (some message) pendingReplies =>
          some
            { s with
              phase := .connected stream none (pendingReplies ++ [message])
              streams := Function.update s.streams stream ((s.streams stream).write message) }
      | _ => none
  | .sendFail reached => match s.phase with
      | .connected stream (some message) _ =>
          some
            { s.reset with
              streams :=
                if reached then
                  Function.update s.streams stream ((s.streams stream).write message)
                else s.streams }
      | _ => none
  | .recv => match s.phase, s.buffer, s.receiver with
      | .connected _ none _, [], message :: receiver =>
          some { s with receiver := receiver, buffer := [message] }
      | _, _, _ => none
  | .ack => match s.phase, s.buffer with
      | .connected stream none pendingReplies, [] =>
          if (s.streams stream).acked < (s.streams stream).delivered then
            match pendingReplies with
            -- `UnexpectedAck`
            | [] => some s.reset
            | message :: pendingReplies =>
                some
                  { s with
                    phase := .connected stream none pendingReplies
                    acknowledged := s.acknowledged ++ [message.cancelHandler]
                    -- nobody is notified if the handler was dropped
                    resolved :=
                      if message.cancelHandler ∈ s.closed then s.resolved
                      else s.resolved ++ [message.cancelHandler]
                    streams := Function.update s.streams stream
                      { s.streams stream with acked := (s.streams stream).acked + 1 } }
          else none
      | _, _ => none
  | .disconnect => match s.phase, s.buffer with
      | .connected _ none _, [] => some s.reset
      | _, _ => none
  | .receive stream =>
      ((s.streams stream).sent[(s.streams stream).delivered]?).map fun message =>
        { s with
          received := s.received ++ [message]
          streams := Function.update s.streams stream
            { s.streams stream with delivered := (s.streams stream).delivered + 1 } }

/-- The messages that are still to be acknowledged, where they are: waiting for an ACK,
    being written, in the buffer, in the channel. -/
def outstanding (s : Connection Bytes) : List (InnerMessage Bytes) :=
  s.inFlight ++ s.buffer ++ s.receiver

end Connection

/-! ## Sequences in order of submission -/

/-- Each message comes after all the earlier ones, but for some. -/
def InOrder (l : List (InnerMessage Bytes)) (but : ℕ → Prop) : Prop :=
  ∀ (k : ℕ) m, l[k]? = some m → ∀ i < m.cancelHandler,
    (∃ x ∈ l.take k, x.cancelHandler = i) ∨ but i

section InOrder

variable {l : List (InnerMessage Bytes)} {but but' : ℕ → Prop} {m : InnerMessage Bytes}

theorem InOrder.mono (h : InOrder l but) (hbut : ∀ i, but i → but' i) : InOrder l but' :=
  fun k m hm i hi => (h k m hm i hi).imp_right (hbut i)

theorem InOrder.append (h : InOrder l but)
    (hm : ∀ i < m.cancelHandler, (∃ x ∈ l, x.cancelHandler = i) ∨ but i) :
    InOrder (l ++ [m]) but := by
  intro k x hx i hi
  by_cases hk : k < l.length
  · rw [List.getElem?_append_left hk] at hx
    rw [List.take_append_of_le_length hk.le]
    exact h k x hx i hi
  · rw [List.getElem?_append_right (by omega)] at hx
    have hlen : k - l.length = 0 := by
      by_contra hne
      rw [List.getElem?_eq_none (by simp; omega)] at hx
      cases hx
    rw [hlen, List.getElem?_cons_zero] at hx
    rw [← Option.some.inj hx] at hi
    rw [List.take_append_of_le_length (by omega), List.take_of_length_le (by omega)]
    exact hm i hi

end InOrder

/-! ## The invariant -/

/-- Where the messages are. -/
structure Placed (s : Connection Bytes) : Prop where
  sorted : s.outstanding.Pairwise fun m m' => m.cancelHandler < m'.cancelHandler
  lt : ∀ m ∈ s.outstanding, m.cancelHandler < s.submitted
  complete : ∀ i < s.submitted, i ∉ s.closed → i ∉ s.acknowledged →
    ∃ m ∈ s.outstanding, m.cancelHandler = i

/-- Cancelled, or received by the peer. -/
def Done (closed : Finset ℕ) (received : List (InnerMessage Bytes)) (i : ℕ) : Prop :=
  i ∈ closed ∨ ∃ m ∈ received, m.cancelHandler = i

/-- What a stream carries. -/
structure Sound (closed : Finset ℕ) (received : List (InnerMessage Bytes))
    (t : TcpStream Bytes) : Prop where
  acked_le : t.acked ≤ t.delivered
  delivered_le : t.delivered ≤ t.sent.length
  mem_received : ∀ m ∈ t.sent.take t.delivered, m ∈ received
  inOrder : InOrder t.sent (Done closed received)

structure Carried (closed : Finset ℕ) (received : List (InnerMessage Bytes)) (opened : ℕ)
    (streams : ℕ → TcpStream Bytes) : Prop where
  sound : ∀ c, Sound closed received (streams c)
  new : ∀ c, opened ≤ c → streams c = .new

structure Inv (s : Connection Bytes) : Prop where
  placed : Placed s
  carried : Carried s.closed s.received s.opened s.streams
  /-- What waits for an ACK is what has been written to the stream and not acknowledged. -/
  pendingReplies : ∀ c sending pending, s.phase = .connected c sending pending →
    c < s.opened ∧ (s.streams c).sent.drop (s.streams c).acked = pending
  acknowledged : ∀ i ∈ s.acknowledged, ∃ m ∈ s.received, m.cancelHandler = i
  resolved : s.resolved ⊆ s.acknowledged
  inOrder : InOrder s.received (· ∈ s.closed)

section Steps

variable {s s' : Connection Bytes} {closed : Finset ℕ} {received : List (InnerMessage Bytes)}
  {opened c : ℕ} {streams : ℕ → TcpStream Bytes} {t : TcpStream Bytes}
  {m : InnerMessage Bytes}

/-- Messages only go when they are cancelled or acknowledged. -/
theorem Placed.sublist (h : Placed s) (hsub : s'.outstanding.Sublist s.outstanding)
    (hsubmitted : s'.submitted = s.submitted) (hclosed : s.closed ⊆ s'.closed)
    (hack : s.acknowledged ⊆ s'.acknowledged)
    (hgone : ∀ m ∈ s.outstanding, m ∈ s'.outstanding ∨ m.cancelHandler ∈ s'.closed ∨
      m.cancelHandler ∈ s'.acknowledged) : Placed s' where
  sorted := h.sorted.sublist hsub
  lt m hm := hsubmitted ▸ h.lt m (hsub.subset hm)
  complete i hi hnc hna := by
    obtain ⟨m, hm, rfl⟩ := h.complete i (hsubmitted ▸ hi) (fun hc => hnc (hclosed hc))
      (fun ha => hna (hack ha))
    rcases hgone m hm with hm | hm | hm
    · exact ⟨m, hm, rfl⟩
    · exact absurd hm hnc
    · exact absurd hm hna

/-- The same messages, in the same order. -/
theorem Placed.congr (h : Placed s) (hout : s'.outstanding = s.outstanding)
    (hsubmitted : s'.submitted = s.submitted) (hclosed : s.closed ⊆ s'.closed)
    (hack : s'.acknowledged = s.acknowledged) : Placed s' :=
  h.sublist (by rw [hout]) hsubmitted hclosed (by rw [hack]; exact List.Subset.refl _)
    fun m hm => Or.inl (by rwa [hout])

theorem Done.mono {closed' : Finset ℕ} {received' : List (InnerMessage Bytes)}
    (hclosed : closed ⊆ closed') (hreceived : received ⊆ received') {i : ℕ}
    (h : Done closed received i) : Done closed' received' i :=
  h.imp (fun hc => hclosed hc) fun ⟨m, hm, hi⟩ => ⟨m, hreceived hm, hi⟩

theorem Sound.mono {closed' : Finset ℕ} {received' : List (InnerMessage Bytes)}
    (hclosed : closed ⊆ closed') (hreceived : received ⊆ received')
    (h : Sound closed received t) : Sound closed' received' t where
  acked_le := h.acked_le
  delivered_le := h.delivered_le
  mem_received m hm := hreceived (h.mem_received m hm)
  inOrder := h.inOrder.mono fun _ => Done.mono hclosed hreceived

theorem Sound.write (h : Sound closed received t)
    (hm : ∀ i < m.cancelHandler,
      (∃ x ∈ t.sent, x.cancelHandler = i) ∨ Done closed received i) :
    Sound closed received (t.write m) where
  acked_le := h.acked_le
  delivered_le := by
    unfold TcpStream.write
    rw [List.length_append]
    exact h.delivered_le.trans (Nat.le_add_right _ _)
  mem_received x hx := by
    unfold TcpStream.write at hx
    rw [List.take_append_of_le_length h.delivered_le] at hx
    exact h.mem_received x hx
  inOrder := h.inOrder.append hm

theorem Sound.ack (h : Sound closed received t) (hlt : t.acked < t.delivered) :
    Sound closed received { t with acked := t.acked + 1 } :=
  { h with acked_le := hlt }

theorem Sound.receive (h : Sound closed received t) (hm : t.sent[t.delivered]? = some m) :
    Sound closed (received ++ [m]) { t with delivered := t.delivered + 1 } where
  acked_le := h.acked_le.trans (Nat.le_succ _)
  delivered_le := (List.getElem?_eq_some_iff.mp hm).1
  mem_received x hx := by
    rw [List.take_add_one, hm, List.mem_append] at hx
    rw [List.mem_append]
    exact hx.imp_left (h.mem_received x)
  inOrder := h.inOrder.mono fun _ => Done.mono (fun _ hi => hi) (List.subset_append_left _ _)

theorem Carried.mono {closed' : Finset ℕ} {received' : List (InnerMessage Bytes)} {opened' : ℕ}
    (h : Carried closed received opened streams) (hclosed : closed ⊆ closed')
    (hreceived : received ⊆ received') (hopened : opened ≤ opened') :
    Carried closed' received' opened' streams where
  sound c := (h.sound c).mono hclosed hreceived
  new c hc := h.new c (hopened.trans hc)

theorem Carried.update (h : Carried closed received opened streams) (hc : c < opened)
    (ht : Sound closed received t) :
    Carried closed received opened (Function.update streams c t) where
  sound := (Function.forall_update_iff streams (p := fun _ t => Sound closed received t)).mpr
    ⟨ht, fun c' _ => h.sound c'⟩
  new c' hc' := by
    rw [Function.update_of_ne (by omega)]
    exact h.new c' hc'

theorem inv_initial : Inv (Connection.initial : Connection Bytes) where
  placed :=
    ⟨List.Pairwise.nil, fun m hm => (by cases hm), fun i hi => absurd hi (Nat.not_lt_zero _)⟩
  carried :=
    ⟨fun _ => ⟨le_rfl, le_rfl, fun m hm => (by cases hm), fun k m hm => (by cases hm)⟩,
      fun _ _ => rfl⟩
  pendingReplies c sending pending h := by cases h
  acknowledged i hi := by cases hi
  resolved := List.Subset.refl _
  inOrder k m hm := by cases hm

theorem outstanding_reset : s.reset.outstanding = s.outstanding := by
  unfold Connection.outstanding Connection.inFlight Connection.reset
  simp [Connection.inFlight]

/-- Nothing that waits for an ACK is forgotten when a stream fails. -/
theorem Inv.reset (h : Inv s) : Inv s.reset where
  placed := h.placed.congr outstanding_reset rfl (fun _ hi => hi) rfl
  carried := h.carried
  pendingReplies c sending pending hphase := by cases hphase
  acknowledged := h.acknowledged
  resolved := h.resolved
  inOrder := h.inOrder

/-- What was submitted before the message that is being written is on the stream already,
    or does not have to be. -/
theorem Inv.before {pending : List (InnerMessage Bytes)} (h : Inv s)
    (hphase : s.phase = .connected c (some m) pending) : ∀ i < m.cancelHandler,
      (∃ x ∈ (s.streams c).sent, x.cancelHandler = i) ∨ Done s.closed s.received i := by
  intro i hi
  have hout : s.outstanding = pending ++ ([m] ++ (s.buffer ++ s.receiver)) := by
    unfold Connection.outstanding Connection.inFlight
    rw [hphase]
    simp
  have hm : m ∈ s.outstanding := by
    rw [hout]
    simp
  by_cases hclosed : i ∈ s.closed
  · exact Or.inr (Or.inl hclosed)
  by_cases hack : i ∈ s.acknowledged
  · exact Or.inr (Or.inr (h.acknowledged i hack))
  obtain ⟨x, hx, rfl⟩ := h.placed.complete i (hi.trans (h.placed.lt m hm)) hclosed hack
  left
  refine ⟨x, ?_, rfl⟩
  -- the message is the first of those that do not wait for an ACK
  have hsorted := h.placed.sorted
  rw [hout] at hx hsorted
  rcases List.mem_append.mp hx with hx | hx
  · rw [← (h.pendingReplies c _ _ hphase).2] at hx
    exact List.mem_of_mem_drop hx
  · have hle : m.cancelHandler ≤ x.cancelHandler := by
      rcases List.mem_append.mp hx with hx | hx
      · rw [List.mem_singleton.mp hx]
      · exact ((List.pairwise_append.mp (List.pairwise_append.mp hsorted).2.1).2.2 m
          (List.mem_singleton_self m) x hx).le
    omega

theorem Inv.submit {data : Bytes} (h : Inv s) (hstep : s.step (.submit data) = some s') :
    Inv s' := by
  unfold Connection.step at hstep
  dsimp only at hstep
  split at hstep
  · obtain rfl := Option.some.inj hstep
    have hout : Connection.outstanding { s with
        receiver := s.receiver ++ [⟨data, s.submitted⟩], submitted := s.submitted + 1 } =
          s.outstanding ++ [⟨data, s.submitted⟩] := by
      unfold Connection.outstanding Connection.inFlight
      simp
    refine ⟨⟨?_, ?_, ?_⟩, h.carried, h.pendingReplies, h.acknowledged, h.resolved, h.inOrder⟩
    · rw [hout, List.pairwise_append]
      refine ⟨h.placed.sorted, List.pairwise_singleton _ _, fun m hm m' hm' => ?_⟩
      rw [List.mem_singleton.mp hm']
      exact h.placed.lt m hm
    · intro m hm
      rw [hout, List.mem_append] at hm
      rcases hm with hm | hm
      · exact (h.placed.lt m hm).trans (Nat.lt_succ_self _)
      · rw [List.mem_singleton.mp hm]
        exact Nat.lt_succ_self _
    · intro i hi hclosed hack
      rw [hout]
      rcases Nat.lt_succ_iff_lt_or_eq.mp hi with hi | rfl
      · obtain ⟨m, hm, hmi⟩ := h.placed.complete i hi hclosed hack
        exact ⟨m, List.mem_append_left _ hm, hmi⟩
      · exact ⟨_, List.mem_append_right _ (List.mem_singleton_self _), rfl⟩
  · cases hstep

theorem Inv.cancel {i : ℕ} (h : Inv s) (hstep : s.step (.cancel i) = some s') : Inv s' := by
  unfold Connection.step at hstep
  dsimp only at hstep
  split at hstep
  · obtain rfl := Option.some.inj hstep
    have hclosed : s.closed ⊆ insert i s.closed := Finset.subset_insert _ _
    exact ⟨h.placed.congr rfl rfl hclosed rfl,
      h.carried.mono hclosed (List.Subset.refl _) le_rfl, h.pendingReplies, h.acknowledged,
      h.resolved, h.inOrder.mono fun _ hi => hclosed hi⟩
  · cases hstep

/-- The stream of a new connection is empty. -/
theorem Inv.connectOk (h : Inv s) (hstep : s.step .connectOk = some s') : Inv s' := by
  unfold Connection.step at hstep
  dsimp only at hstep
  split at hstep
  · rename_i hphase
    obtain rfl := Option.some.inj hstep
    refine ⟨h.placed.congr ?_ rfl (fun _ hi => hi) rfl,
      h.carried.mono (fun _ hi => hi) (List.Subset.refl _) (Nat.le_succ _), ?_, h.acknowledged,
      h.resolved, h.inOrder⟩
    · unfold Connection.outstanding Connection.inFlight
      simp [hphase]
    · intro c sending pending hp
      obtain ⟨rfl, -, rfl⟩ := Phase.connected.inj hp
      refine ⟨Nat.lt_succ_self _, ?_⟩
      dsimp only
      rw [h.carried.new _ le_rfl]
      rfl
  · cases hstep

/-- Between two connections only the phase changes. -/
theorem Inv.phase {phase : Phase Bytes} (h : Inv s)
    (hold : ∀ c sending pending, s.phase ≠ .connected c sending pending)
    (hnew : ∀ c sending pending, phase ≠ .connected c sending pending) :
    Inv { s with phase := phase } := by
  have hnil : ∀ s : Connection Bytes, (∀ c sending pending,
      s.phase ≠ .connected c sending pending) → s.inFlight = [] := by
    intro s hs
    unfold Connection.inFlight
    split
    · rename_i hp
      exact absurd hp (hs _ _ _)
    · rfl
  refine ⟨h.placed.congr ?_ rfl (fun _ hi => hi) rfl, h.carried,
    fun c sending pending hp => absurd hp (hnew _ _ _), h.acknowledged, h.resolved, h.inOrder⟩
  unfold Connection.outstanding
  rw [hnil s hold, hnil _ hnew]

theorem Inv.drain (h : Inv s) (hstep : s.step .drain = some s') : Inv s' := by
  unfold Connection.step at hstep
  dsimp only at hstep
  split at hstep
  · rename_i message receiver hphase hreceiver
    obtain rfl := Option.some.inj hstep
    have hout : s.outstanding = (s.buffer ++ [message]) ++ receiver := by
      unfold Connection.outstanding Connection.inFlight
      simp [hphase, hreceiver]
    have hout' : Connection.outstanding { s with
        receiver := receiver
        buffer := (s.buffer ++ [message]).filter fun m => m.cancelHandler ∉ s.closed } =
          ((s.buffer ++ [message]).filter fun m => m.cancelHandler ∉ s.closed) ++ receiver := by
      unfold Connection.outstanding Connection.inFlight
      simp [hphase]
    refine ⟨h.placed.sublist ?_ rfl (fun _ hi => hi) (List.Subset.refl _) ?_, h.carried,
      h.pendingReplies, h.acknowledged, h.resolved, h.inOrder⟩
    · rw [hout, hout']
      exact List.filter_sublist.append (List.Sublist.refl _)
    · intro m hm
      rw [hout, List.mem_append] at hm
      rw [hout', List.mem_append, List.mem_filter]
      by_cases hclosed : m.cancelHandler ∈ s.closed
      · exact Or.inr (Or.inl hclosed)
      · exact Or.inl (hm.imp_left fun hm => ⟨hm, by simpa using hclosed⟩)
  · cases hstep

theorem Inv.pop (h : Inv s) (hstep : s.step .pop = some s') : Inv s' := by
  unfold Connection.step at hstep
  dsimp only at hstep
  split at hstep
  · rename_i stream pendingReplies message buffer hphase hbuffer
    have hout : s.outstanding = pendingReplies ++ message :: (buffer ++ s.receiver) := by
      unfold Connection.outstanding Connection.inFlight
      simp [hphase, hbuffer]
    split at hstep
    · rename_i hclosed
      obtain rfl := Option.some.inj hstep
      have hout' : Connection.outstanding { s with buffer := buffer } =
          pendingReplies ++ (buffer ++ s.receiver) := by
        unfold Connection.outstanding Connection.inFlight
        simp [hphase]
      refine ⟨h.placed.sublist ?_ rfl (fun _ hi => hi) (List.Subset.refl _) ?_, h.carried,
        h.pendingReplies, h.acknowledged, h.resolved, h.inOrder⟩
      · rw [hout, hout']
        exact (List.Sublist.refl _).append (List.sublist_cons_self _ _)
      · intro m hm
        rw [hout, List.mem_append, List.mem_cons] at hm
        rw [hout', List.mem_append]
        rcases hm with hm | rfl | hm
        · exact Or.inl (Or.inl hm)
        · exact Or.inr (Or.inl hclosed)
        · exact Or.inl (Or.inr hm)
    · obtain rfl := Option.some.inj hstep
      refine ⟨h.placed.congr ?_ rfl (fun _ hi => hi) rfl, h.carried, ?_, h.acknowledged,
        h.resolved, h.inOrder⟩
      · rw [hout]
        unfold Connection.outstanding Connection.inFlight
        simp
      · intro c sending pending hp
        obtain ⟨rfl, -, rfl⟩ := Phase.connected.inj hp
        exact h.pendingReplies _ _ _ hphase
  · cases hstep

theorem Inv.sendOk (h : Inv s) (hstep : s.step .sendOk = some s') : Inv s' := by
  unfold Connection.step at hstep
  dsimp only at hstep
  split at hstep
  · rename_i stream message pendingReplies hphase
    obtain rfl := Option.some.inj hstep
    obtain ⟨hopened, hdrop⟩ := h.pendingReplies _ _ _ hphase
    have hsound := h.carried.sound stream
    refine ⟨h.placed.congr ?_ rfl (fun _ hi => hi) rfl,
      h.carried.update hopened (hsound.write (h.before hphase)), ?_, h.acknowledged, h.resolved,
      h.inOrder⟩
    · unfold Connection.outstanding Connection.inFlight
      simp [hphase]
    · intro c sending pending hp
      obtain ⟨rfl, -, rfl⟩ := Phase.connected.inj hp
      refine ⟨hopened, ?_⟩
      dsimp only
      rw [Function.update_self]
      unfold TcpStream.write
      rw [List.drop_append_of_le_length (hsound.acked_le.trans hsound.delivered_le), hdrop]
  · cases hstep

theorem Inv.sendFail {reached : Bool} (h : Inv s) (hstep : s.step (.sendFail reached) = some s') :
    Inv s' := by
  unfold Connection.step at hstep
  dsimp only at hstep
  split at hstep
  · rename_i stream message pendingReplies hphase
    obtain rfl := Option.some.inj hstep
    obtain ⟨hopened, -⟩ := h.pendingReplies _ _ _ hphase
    have hreset := h.reset
    refine ⟨hreset.placed.congr rfl rfl (fun _ hi => hi) rfl, ?_, ?_,
      hreset.acknowledged, hreset.resolved, hreset.inOrder⟩
    · dsimp only
      split
      · exact h.carried.update hopened ((h.carried.sound stream).write (h.before hphase))
      · exact h.carried
    · intro c sending pending hp
      cases hp
  · cases hstep

theorem Inv.recv (h : Inv s) (hstep : s.step .recv = some s') : Inv s' := by
  unfold Connection.step at hstep
  dsimp only at hstep
  split at hstep
  · rename_i stream pendingReplies message receiver hphase hbuffer hreceiver
    obtain rfl := Option.some.inj hstep
    refine ⟨h.placed.congr ?_ rfl (fun _ hi => hi) rfl, h.carried, h.pendingReplies,
      h.acknowledged, h.resolved, h.inOrder⟩
    unfold Connection.outstanding Connection.inFlight
    simp [hphase, hbuffer, hreceiver]
  · cases hstep

/-- The message that an ACK is taken for was received. -/
theorem Inv.ack (h : Inv s) (hstep : s.step .ack = some s') : Inv s' := by
  unfold Connection.step at hstep
  dsimp only at hstep
  split at hstep
  · rename_i stream pendingReplies hphase hbuffer
    split at hstep
    · rename_i hlt
      obtain ⟨hopened, hdrop⟩ := h.pendingReplies _ _ _ hphase
      split at hstep
      · obtain rfl := Option.some.inj hstep
        exact h.reset
      · rename_i message pendingReplies
        obtain rfl := Option.some.inj hstep
        have hsound := h.carried.sound stream
        have hlen : (s.streams stream).acked < (s.streams stream).sent.length :=
          hlt.trans_le hsound.delivered_le
        rw [List.drop_eq_getElem_cons hlen] at hdrop
        obtain ⟨hmessage, hrest⟩ := List.cons.inj hdrop
        have hreceived : message ∈ s.received := by
          refine hsound.mem_received message ?_
          rw [← hmessage, List.mem_take_iff_getElem]
          exact ⟨(s.streams stream).acked, by omega, rfl⟩
        have hout : s.outstanding = message :: (pendingReplies ++ s.receiver) := by
          unfold Connection.outstanding Connection.inFlight
          simp [hphase, hbuffer]
        have hsub : s.acknowledged ⊆ s.acknowledged ++ [message.cancelHandler] :=
          List.subset_append_left _ _
        refine ⟨h.placed.sublist ?_ rfl (fun _ hi => hi) hsub ?_,
          h.carried.update hopened (hsound.ack hlt), ?_, ?_, ?_, h.inOrder⟩
        · rw [hout]
          unfold Connection.outstanding Connection.inFlight
          simp [hbuffer]
        · intro m hm
          rw [hout, List.mem_cons] at hm
          rcases hm with rfl | hm
          · exact Or.inr (Or.inr (by simp))
          · left
            unfold Connection.outstanding Connection.inFlight
            simpa [hbuffer] using hm
        · intro c sending pending hp
          obtain ⟨rfl, -, rfl⟩ := Phase.connected.inj hp
          refine ⟨hopened, ?_⟩
          dsimp only
          rw [Function.update_self]
          exact hrest
        · intro i hi
          rcases List.mem_append.mp hi with hi | hi
          · exact h.acknowledged i hi
          · exact ⟨message, hreceived, (List.mem_singleton.mp hi).symm⟩
        · dsimp only
          split
          · exact fun i hi => hsub (h.resolved hi)
          · intro i hi
            rw [List.mem_append] at hi ⊢
            exact hi.imp_left fun hi => h.resolved hi
    · cases hstep
  · cases hstep

theorem Inv.disconnect (h : Inv s) (hstep : s.step .disconnect = some s') : Inv s' := by
  unfold Connection.step at hstep
  dsimp only at hstep
  split at hstep
  · obtain rfl := Option.some.inj hstep
    exact h.reset
  · cases hstep

theorem Inv.receive (h : Inv s) (hstep : s.step (.receive c) = some s') : Inv s' := by
  unfold Connection.step at hstep
  obtain ⟨message, hm, rfl⟩ := Option.map_eq_some_iff.mp hstep
  have hsound := h.carried.sound c
  have hsub : s.received ⊆ s.received ++ [message] := List.subset_append_left _ _
  have hopened : c < s.opened := by
    by_contra hc
    rw [h.carried.new c (Nat.le_of_not_lt hc)] at hm
    cases hm
  refine ⟨h.placed.congr rfl rfl (fun _ hi => hi) rfl,
    (h.carried.mono (fun _ hi => hi) hsub le_rfl).update hopened (hsound.receive hm), ?_, ?_,
    h.resolved, h.inOrder.append ?_⟩
  · intro c' sending pending hp
    obtain ⟨hopened', hdrop⟩ := h.pendingReplies c' sending pending hp
    refine ⟨hopened', ?_⟩
    dsimp only
    by_cases hc : c' = c
    · subst hc
      rw [Function.update_self]
      exact hdrop
    · rw [Function.update_of_ne hc]
      exact hdrop
  · intro i hi
    obtain ⟨m, hm, hmi⟩ := h.acknowledged i hi
    exact ⟨m, hsub hm, hmi⟩
  · intro i hi
    rcases hsound.inOrder _ _ hm i hi with ⟨x, hx, hxi⟩ | hclosed | hreceived
    · exact Or.inl ⟨x, hsound.mem_received x hx, hxi⟩
    · exact Or.inr hclosed
    · exact Or.inl hreceived

theorem Inv.step {e : ConnectionEvent Bytes} (h : Inv s) (hstep : s.step e = some s') :
    Inv s' := by
  cases e with
  | submit data => exact h.submit hstep
  | cancel i => exact h.cancel hstep
  | connectOk => exact h.connectOk hstep
  | connectFail =>
      unfold Connection.step at hstep
      dsimp only at hstep
      split at hstep
      · rename_i hphase
        obtain rfl := Option.some.inj hstep
        exact h.phase (fun _ _ _ hp => by simp [hphase] at hp) fun _ _ _ => nofun
      · cases hstep
  | timer =>
      unfold Connection.step at hstep
      dsimp only at hstep
      split at hstep
      · rename_i hphase
        obtain rfl := Option.some.inj hstep
        exact h.phase (fun _ _ _ hp => by simp [hphase] at hp) fun _ _ _ => nofun
      · cases hstep
  | drain => exact h.drain hstep
  | pop => exact h.pop hstep
  | sendOk => exact h.sendOk hstep
  | sendFail reached => exact h.sendFail hstep
  | recv => exact h.recv hstep
  | ack => exact h.ack hstep
  | disconnect => exact h.disconnect hstep
  | receive c => exact h.receive hstep

end Steps

/-! ## Delivery -/

/-- In every state that is reached, the messages that wait for an ACK, that are being
    written, in the buffer and in the channel are all different and in the order of
    submission, and every message that was neither cancelled nor acknowledged is one of
    them; the peer reads no message before an earlier one that is not cancelled; and a
    cancel handler is resolved only for a message that the peer has read. -/
theorem bookkeeping (s : Connection Bytes)
    (hs : Reaches Connection.step Always Connection.initial s) :
    s.outstanding.Pairwise (fun m m' => m.cancelHandler < m'.cancelHandler) ∧
    (∀ i < s.submitted, i ∉ s.closed → i ∉ s.acknowledged →
      ∃ m ∈ s.outstanding, m.cancelHandler = i) ∧
    (∀ pre m post, s.received = pre ++ m :: post → ∀ i < m.cancelHandler,
      (∃ x ∈ pre, x.cancelHandler = i) ∨ i ∈ s.closed) ∧
    ∀ i ∈ s.resolved, ∃ m ∈ s.received, m.cancelHandler = i := by
  have h : Inv s := hs.invariant (fun _ _ _ h _ hstep => h.step hstep) inv_initial
  refine ⟨h.placed.sorted, h.placed.complete, fun pre m post he i hi => ?_,
    fun i hi => h.acknowledged i (h.resolved hi)⟩
  have hm : s.received[pre.length]? = some m := by
    rw [he, List.getElem?_append_right le_rfl, Nat.sub_self, List.getElem?_cons_zero]
  have := h.inOrder pre.length m hm i hi
  rwa [he, List.take_left] at this

/-- A message is cancelled after it was written to a stream that fails, and the peer reads
    the next stream first. -/
def cancelled : List (ConnectionEvent Unit) :=
  [.submit (), .connectOk, .recv, .pop, .sendOk, .disconnect, .cancel 0, .submit (), .connectOk,
    .pop, .recv, .pop, .sendOk, .receive 1, .receive 0]

/-- A cancelled message comes after a later one, and a message that was submitted may be
    neither in the buffer nor wait for an ACK: it is still in the channel. -/
theorem not_bookkeeping :
    (∃ s, exec Connection.step Connection.initial cancelled = some s ∧
      s.received.map InnerMessage.cancelHandler = [1, 0]) ∧
    ∃ s, exec Connection.step Connection.initial [.submit ()] = some s ∧ 0 < s.submitted ∧
      0 ∉ s.closed ∧ 0 ∉ s.acknowledged ∧ s.inFlight ++ s.buffer = [] :=
  ⟨⟨_, rfl, by decide⟩, _, rfl, by decide, by decide, by decide, by decide⟩

theorem bookkeeping_sample : ∃ s, exec Connection.step Connection.initial cancelled = some s ∧
    ∀ pre m post, s.received = pre ++ m :: post → ∀ i < m.cancelHandler,
      (∃ x ∈ pre, x.cancelHandler = i) ∨ i ∈ s.closed := by
  obtain ⟨s, hs⟩ : ∃ s, exec Connection.step Connection.initial cancelled = some s := ⟨_, rfl⟩
  exact ⟨s, hs, (bookkeeping s (reaches_of_exec hs (allowed_always _ _))).2.2.1⟩

end DagBft.Network
