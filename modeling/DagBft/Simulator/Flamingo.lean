/-
  The Flamingo scheduler of the simulator (`executor-sim/flamingo.py`), next to the new
  scheduler of `BatchExecutor`.

  Both give a transaction to the owner of most of its accounts that has load to spare, then to
  the one with less load. They break a tie in the load differently: the executor takes the
  lower id, the simulator the owner of the first account. `schedules_agree_iff`: on
  transactions with one or two accounts this is the only difference.
-/
import DagBft.Fusion.Shares

namespace DagBft.Simulator

open Fusion Worker

/-- What Python raises. -/
inductive PyError
  | zeroDivision
  /-- The account is not in the partition. -/
  | key
  /-- There is no such executor. -/
  | index
  /-- `min` of an empty list. -/
  | value
  /-- An attribute of `None`. -/
  | attribute
  | assertion
  /-- The fuel of a loop ran out. -/
  | fuel
deriving DecidableEq, Repr

/-- Represents a transaction with explicit read/write sets. -/
structure Transaction where
  id : ℕ
  readSet : List ℕ
  writeSet : List ℕ
deriving DecidableEq, Repr

/-- `list(dict.fromkeys(l))`: the elements in the order in which they first come. -/
def fromKeys (l : List ℕ) : List ℕ :=
  l.foldl (fun keys k => if k ∈ keys then keys else keys ++ [k]) []

def Transaction.accounts (tx : Transaction) : List ℕ := fromKeys (tx.readSet ++ tx.writeSet)

namespace Flamingo

/-! ## The scheduler -/

/-- `math.ceil((len(batch) / num_executors) * (1 + 0.5))`. The quotient of two integers is
    rounded once. -/
def maxAllowed (transactions numExecutors : ℕ) : ℕ :=
  ⌈Double.round (Double.round ((transactions : ℚ) / numExecutors) * (3 / 2))⌉.toNat

/-- The votes of the owners. The partition is looked up for each account, also where
    `local_updates` has it. -/
def countVotes (partition localUpdates : Partition) : List ℕ → List (ℕ × ℕ) →
    Except PyError (List (ℕ × ℕ))
  | [], votes => .ok votes
  | account :: accounts, votes =>
      match partition account with
      | some executor =>
          countVotes partition localUpdates accounts
            (addVote votes ((localUpdates account).getD executor))
      | none => .error .key

/-- `current_loads[executor_id]`. -/
def loadOf (currentLoads : List ℕ) (executorId : ℕ) : Except PyError ℕ :=
  match currentLoads[executorId]? with
  | some load => .ok load
  | none => .error .index

/-- The loop over the votes: the best score and its executor so far. -/
def scanVotes (maxAllowed : ℕ) (currentLoads : List ℕ) :
    List (ℕ × ℕ) → Option (ℕ × ℕ) → Except PyError (Option (ℕ × ℕ))
  | [], best => .ok best
  | (executorId, voteScore) :: votes, best => do
      let load ← loadOf currentLoads executorId
      if load < maxAllowed then
        match best with
        | none => scanVotes maxAllowed currentLoads votes (some (voteScore, executorId))
        | some (bestVoteScore, bestExecutor) => do
            let bestLoad ← loadOf currentLoads bestExecutor
            if bestVoteScore < voteScore ∨ voteScore = bestVoteScore ∧ load < bestLoad then
              scanVotes maxAllowed currentLoads votes (some (voteScore, executorId))
            else scanVotes maxAllowed currentLoads votes best
      else scanVotes maxAllowed currentLoads votes best

def bestExecutor (maxAllowed : ℕ) (currentLoads : List ℕ) (votes : List (ℕ × ℕ)) :
    Except PyError (Option ℕ) := do
  match votes with
  -- all accounts belong to a single executor
  | [(executorId, _)] =>
      let load ← loadOf currentLoads executorId
      if load < maxAllowed then
        return some executorId
  | _ => pure ()
  return (← scanVotes maxAllowed currentLoads votes none).map Prod.snd

/-- `current_loads.index(min(current_loads))`. -/
def leastLoaded (currentLoads : List ℕ) : Except PyError ℕ :=
  match currentLoads.min? with
  | some load => .ok (currentLoads.idxOf load)
  | none => .error .value

/-- The loop over the batch, with the owners that it has assigned itself and the loads. -/
def assign (maxAllowed : ℕ) (partition : Partition) :
    Partition → List ℕ → List Transaction → Except PyError (List ℕ)
  | _, _, [] => .ok []
  | localUpdates, currentLoads, tx :: batch => do
      let votes ← countVotes partition localUpdates tx.accounts []
      let best ← bestExecutor maxAllowed currentLoads votes
      let executor ← match best with
        | some executorId => .ok executorId
        | none => leastLoaded currentLoads
      let load ← loadOf currentLoads executor
      let schedule ← assign maxAllowed partition
        (fun a => if a ∈ tx.accounts then some executor else localUpdates a)
        (currentLoads.set executor (load + 1)) batch
      .ok (executor :: schedule)

/-- `Scheduler.__call__`. -/
def scheduler (partition : Partition) (batch : List Transaction) (numExecutors : ℕ) :
    Except PyError (List ℕ) :=
  if numExecutors = 0 then .error .zeroDivision
  else
    assign (maxAllowed batch.length numExecutors) partition (fun _ => none)
      (List.replicate numExecutors 0) batch

/-! ## Votes of one or two accounts -/

theorem mem_fromKeys {l : List ℕ} {a : ℕ} : a ∈ fromKeys l ↔ a ∈ l := by
  unfold fromKeys
  suffices h : ∀ keys, a ∈ l.foldl (fun keys k => if k ∈ keys then keys else keys ++ [k]) keys ↔
      a ∈ keys ∨ a ∈ l by
    simpa using h []
  induction l with
  | nil => simp
  | cons k l ih =>
      intro keys
      rw [List.foldl_cons, ih, List.mem_cons]
      split
      · rename_i hk
        constructor
        · exact Or.imp_right Or.inr
        · rintro (h | rfl | h)
          · exact Or.inl h
          · exact Or.inl hk
          · exact Or.inr h
      · rw [List.mem_append, List.mem_singleton, or_assoc]

theorem fromKeys_pair (a a' : ℕ) : fromKeys [a, a'] = if a' = a then [a] else [a, a'] := by
  unfold fromKeys
  by_cases h : a' = a
  · simp [h]
  · simp [h]

theorem loadOf_ok {loads : List ℕ} {e : ℕ} (h : e < loads.length) :
    loadOf loads e = .ok (loads.getD e 0) := by
  unfold loadOf
  simp [h, List.getD]

variable {cap : ℕ} {loads : List ℕ} {e e' : ℕ}

theorem bestExecutor_single (h : e < loads.length) (score : ℕ) :
    bestExecutor cap loads [(e, score)] =
      .ok (if loads.getD e 0 < cap then some e else none) := by
  unfold bestExecutor
  by_cases hlt : loads.getD e 0 < cap
  · simp only [loadOf_ok h, hlt, if_true, bind, Except.bind, pure, Except.pure]
  · simp only [loadOf_ok h, scanVotes, hlt, if_false, bind, Except.bind, pure, Except.pure,
      Option.map_none]

/-- Of two owners the simulator takes the second if that has less load. -/
theorem bestExecutor_pair (h : e < loads.length) (h' : e' < loads.length) :
    bestExecutor cap loads [(e, 1), (e', 1)] =
      .ok (if loads.getD e 0 < cap then
        if loads.getD e' 0 < loads.getD e 0 then some e' else some e
      else if loads.getD e' 0 < cap then some e' else none) := by
  unfold bestExecutor
  simp only [loadOf_ok h, loadOf_ok h', scanVotes, bind, Except.bind, pure, Except.pure,
    lt_irrefl, false_or, true_and]
  by_cases hlt : loads.getD e 0 < cap
  · by_cases hless : loads.getD e' 0 < loads.getD e 0
    · simp only [hlt, hless, hless.trans hlt, if_true, Option.map_some]
    · simp only [hlt, hless, if_true, if_false, ite_self, Option.map_some]
  · by_cases hlt' : loads.getD e' 0 < cap
    · simp only [hlt, hlt', if_true, if_false, Option.map_some]
    · simp only [hlt, hlt', if_false, Option.map_none]

/-- The executor takes it also if it has as much load and a lower id. -/
theorem fusion_bestExecutor_pair (h : e < loads.length) (h' : e' < loads.length) :
    Fusion.bestExecutor cap loads [(e, 1), (e', 1)] =
      .ok (if loads.getD e 0 < cap then
        if loads.getD e' 0 < loads.getD e 0 ∨ loads.getD e' 0 = loads.getD e 0 ∧ e' < e then
          some e'
        else some e
      else if loads.getD e' 0 < cap then some e' else none) := by
  rw [bestExecutor_eq, if_pos (by simp [h, h'])]
  refine congrArg Except.ok ?_
  simp only [List.foldl_cons, List.foldl_nil, stepVote]
  by_cases hlt : loads.getD e 0 < cap
  · rw [if_pos hlt, if_pos hlt]
    by_cases htake : loads.getD e' 0 < loads.getD e 0 ∨ loads.getD e' 0 = loads.getD e 0 ∧ e' < e
    · rw [if_pos (by omega), if_pos htake]
      dsimp only
      rw [if_pos (by omega)]
      rfl
    · rw [if_neg htake]
      dsimp only
      split
      · rw [if_neg (by omega)]
        rfl
      · rfl
  · rw [if_neg hlt, if_neg hlt]
    split
    · rfl
    · rfl

theorem fusion_bestExecutor_single (h : e < loads.length) (score : ℕ) :
    Fusion.bestExecutor cap loads [(e, score)] =
      .ok (if loads.getD e 0 < cap then some e else none) := by
  rw [bestExecutor_eq, if_pos (by simp [h])]
  refine congrArg Except.ok ?_
  simp only [List.foldl_cons, List.foldl_nil, stepVote]
  split
  · rfl
  · rfl

/-! ## One transaction -/

variable {partition localUpdates : Partition} {a a' : ℕ}

/-- Two owners with as much load, the second of which has the lower id. -/
def Inverted (cap : ℕ) (owner : Partition) (load : ℕ → ℕ) (accounts : List ℕ) : Prop :=
  ∃ a a' e e', accounts = [a, a'] ∧ owner a = some e ∧ owner a' = some e' ∧ e' < e ∧
    load e = load e' ∧ load e < cap

theorem fusion_countVotes_single (h : currentOwner partition localUpdates a = some e) :
    Fusion.countVotes partition localUpdates [a] [] = .ok [(e, 1)] := by
  unfold currentOwner at h
  simp only [Fusion.countVotes, h, addVote]

theorem fusion_countVotes_pair (h : currentOwner partition localUpdates a = some e)
    (h' : currentOwner partition localUpdates a' = some e') :
    Fusion.countVotes partition localUpdates [a, a'] [] =
      .ok (if e = e' then [(e, 2)] else [(e, 1), (e', 1)]) := by
  unfold currentOwner at h h'
  simp only [Fusion.countVotes, h, h', addVote]

theorem getD_owner {executor : ℕ} (hp : partition a = some executor)
    (h : currentOwner partition localUpdates a = some e) :
    (localUpdates a).getD executor = e := by
  unfold currentOwner at h
  rw [hp] at h
  cases hl : localUpdates a with
  | none =>
      rw [hl] at h
      exact Option.some.inj h
  | some e' =>
      rw [hl] at h
      exact Option.some.inj h

theorem countVotes_single (hknown : (partition a).isSome)
    (h : currentOwner partition localUpdates a = some e) :
    countVotes partition localUpdates [a] [] = .ok [(e, 1)] := by
  obtain ⟨executor, hp⟩ := Option.isSome_iff_exists.mp hknown
  simp only [countVotes, hp, getD_owner hp h, addVote]

theorem countVotes_pair (hknown : (partition a).isSome) (hknown' : (partition a').isSome)
    (h : currentOwner partition localUpdates a = some e)
    (h' : currentOwner partition localUpdates a' = some e') :
    countVotes partition localUpdates [a, a'] [] =
      .ok (if e = e' then [(e, 2)] else [(e, 1), (e', 1)]) := by
  obtain ⟨executor, hp⟩ := Option.isSome_iff_exists.mp hknown
  obtain ⟨executor', hp'⟩ := Option.isSome_iff_exists.mp hknown'
  simp only [countVotes, hp, hp', getD_owner hp h, getD_owner hp' h', addVote]

/-- What the two schedulers think best for a transaction. -/
structure Choice (cap : ℕ) (partition localUpdates : Partition) (loads accounts : List ℕ)
    (best best' : Option ℕ) : Prop where
  agree : ¬ Inverted cap (currentOwner partition localUpdates) (fun e => loads.getD e 0) accounts →
    best' = best
  differ : Inverted cap (currentOwner partition localUpdates) (fun e => loads.getD e 0) accounts →
    ∃ e e', best = some e' ∧ best' = some e ∧ e' < e ∧ e < loads.length

theorem not_inverted_single {owner : Partition} {load : ℕ → ℕ} :
    ¬ Inverted cap owner load [a] := by
  rintro ⟨b, b', -, -, heq, -⟩
  cases heq

theorem inverted_pair {owner : Partition} {load : ℕ → ℕ} (h : owner a = some e)
    (h' : owner a' = some e') :
    Inverted cap owner load [a, a'] ↔ e' < e ∧ load e = load e' ∧ load e < cap := by
  constructor
  · rintro ⟨b, b', o, o', heq, ho, ho', hlt⟩
    cases heq
    rw [h, Option.some.injEq] at ho
    rw [h', Option.some.injEq] at ho'
    rwa [ho, ho']
  · exact fun hlt => ⟨a, a', e, e', rfl, h, h', hlt⟩

theorem choice_single (hknown : (partition a).isSome)
    (h : currentOwner partition localUpdates a = some e) (he : e < loads.length)
    {score : ℕ} {best : Option ℕ} {accounts : List ℕ}
    (hnot : ¬ Inverted cap (currentOwner partition localUpdates) (fun e => loads.getD e 0) accounts)
    (hbest : Fusion.bestExecutor cap loads [(e, score)] = .ok best) :
    ∃ votes best', countVotes partition localUpdates [a] [] = .ok votes ∧
      bestExecutor cap loads votes = .ok best' ∧
      Choice cap partition localUpdates loads accounts best best' := by
  rw [fusion_bestExecutor_single he, Except.ok.injEq] at hbest
  exact ⟨_, _, countVotes_single hknown h, bestExecutor_single he 1, fun _ => hbest,
    fun hinv => absurd hinv hnot⟩

theorem choice_pair (hknown : (partition a).isSome) (hknown' : (partition a').isSome)
    (h : currentOwner partition localUpdates a = some e)
    (h' : currentOwner partition localUpdates a' = some e') (he : e < loads.length)
    (he' : e' < loads.length) {best : Option ℕ}
    (hbest : Fusion.bestExecutor cap loads (if e = e' then [(e, 2)] else [(e, 1), (e', 1)]) =
      .ok best) :
    ∃ votes best', countVotes partition localUpdates [a, a'] [] = .ok votes ∧
      bestExecutor cap loads votes = .ok best' ∧
      Choice cap partition localUpdates loads [a, a'] best best' := by
  have hvotes := countVotes_pair hknown hknown' h h'
  by_cases hsame : e = e'
  · rw [if_pos hsame] at hbest hvotes
    rw [fusion_bestExecutor_single he, Except.ok.injEq] at hbest
    refine ⟨_, _, hvotes, bestExecutor_single he 2, fun _ => hbest, fun hinv => ?_⟩
    have := ((inverted_pair h h').mp hinv).1
    omega
  · rw [if_neg hsame] at hbest hvotes
    rw [fusion_bestExecutor_pair he he', Except.ok.injEq] at hbest
    refine ⟨_, _, hvotes, bestExecutor_pair he he', fun hnot => ?_, fun hinv => ?_⟩
    · rw [inverted_pair h h'] at hnot
      subst hbest
      by_cases hlt : loads.getD e 0 < cap
      · rw [if_pos hlt, if_pos hlt]
        refine if_congr ⟨Or.inl, fun hor => ?_⟩ rfl rfl
        by_contra hless
        exact hnot ⟨by omega, by omega, hlt⟩
      · rw [if_neg hlt, if_neg hlt]
    · obtain ⟨hlow, hload, hlt⟩ := (inverted_pair h h').mp hinv
      refine ⟨e, e', ?_, ?_, hlow, he⟩
      · rw [← hbest, if_pos hlt, if_pos (Or.inr ⟨hload.symm, hlow⟩)]
      · rw [if_pos hlt, if_neg (by omega)]

theorem requiredAccounts_cases (sbTx : SmallBankTransaction) :
    (∃ a, sbTx.requiredAccounts = [a]) ∨ ∃ a a', sbTx.requiredAccounts = [a, a'] := by
  unfold SmallBankTransaction.requiredAccounts
  split
  · exact Or.inr ⟨_, _, rfl⟩
  · exact Or.inl ⟨_, rfl⟩

/-- The two differ on a transaction if and only if it is inverted. -/
theorem exists_choice (sbTx : SmallBankTransaction)
    (hknown : ∀ a ∈ sbTx.requiredAccounts, (partition a).isSome)
    (howned : (currentOwner partition localUpdates).Owned loads.length)
    {votes votes' : List (ℕ × ℕ)} {best : Option ℕ}
    (hvotes : Fusion.countVotes partition localUpdates sbTx.requiredAccounts [] = .ok votes)
    (hperm : votes'.Perm votes) (hbest : Fusion.bestExecutor cap loads votes' = .ok best) :
    ∃ votes best', countVotes partition localUpdates (fromKeys sbTx.requiredAccounts) [] =
        .ok votes ∧ bestExecutor cap loads votes = .ok best' ∧
      Choice cap partition localUpdates loads sbTx.requiredAccounts best best' := by
  have howner : ∀ a ∈ sbTx.requiredAccounts,
      ∃ e, currentOwner partition localUpdates a = some e ∧ e < loads.length := by
    intro a ha
    have hsome : (currentOwner partition localUpdates a).isSome := by
      unfold currentOwner
      rw [Option.isSome_or, hknown a ha, Bool.or_true]
    obtain ⟨e, he⟩ := Option.isSome_iff_exists.mp hsome
    exact ⟨e, he, howned a e he⟩
  rw [bestExecutor_perm hperm] at hbest
  rcases requiredAccounts_cases sbTx with ⟨a, hacc⟩ | ⟨a, a', hacc⟩
  · rw [hacc, List.forall_mem_singleton] at hknown howner
    obtain ⟨e, h, he⟩ := howner
    rw [hacc, fusion_countVotes_single h, Except.ok.injEq] at hvotes
    subst hvotes
    rw [hacc]
    exact choice_single hknown h he not_inverted_single hbest
  · rw [hacc, List.forall_mem_cons, List.forall_mem_singleton] at hknown howner
    obtain ⟨hknown, hknown'⟩ := hknown
    obtain ⟨⟨e, h, he⟩, e', h', he'⟩ := howner
    rw [hacc, fusion_countVotes_pair h h', Except.ok.injEq] at hvotes
    subst hvotes
    rw [hacc, fromKeys_pair]
    split
    · -- the same account twice
      rename_i hsame
      subst hsame
      obtain rfl : e = e' := Option.some.inj (h.symm.trans h')
      rw [if_pos rfl] at hbest
      refine choice_single hknown' h he (fun hinv => ?_) hbest
      exact absurd ((inverted_pair h h').mp hinv).1 (lt_irrefl _)
    · exact choice_pair hknown hknown' h h' he he' hbest

/-! ## A batch -/

variable {n i : ℕ} {iter : Iteration} {transactions : List Bytes} {batch : List Transaction}
  {txs : List Scheduled}

/-- The transaction of the simulator has the accounts of the payload. -/
def Simulated (txBytes : Bytes) (tx : Transaction) : Prop :=
  ∃ sbTx, parseSmallbankPayload txBytes = some sbTx ∧ tx.accounts = fromKeys sbTx.requiredAccounts

theorem leastLoaded_of_fusion {target : ℕ} (h : Fusion.leastLoaded loads = .ok target) :
    leastLoaded loads = .ok target := by
  unfold Fusion.leastLoaded at h
  unfold leastLoaded
  cases hmin : loads.min? with
  | none =>
      rw [hmin] at h
      cases h
  | some load =>
      rw [hmin] at h
      rw [← Except.ok.inj h]

theorem assign_cons {tx : Transaction} {votes : List (ℕ × ℕ)} {best : Option ℕ} {target : ℕ}
    {schedule : List ℕ} (hvotes : countVotes partition localUpdates tx.accounts [] = .ok votes)
    (hbest : bestExecutor cap loads votes = .ok best)
    (htarget : best = some target ∨ best = none ∧ leastLoaded loads = .ok target)
    (hlt : target < loads.length)
    (hrest : assign cap partition
      (fun a => if a ∈ tx.accounts then some target else localUpdates a)
      (loads.set target (loads.getD target 0 + 1)) batch = .ok schedule) :
    assign cap partition localUpdates loads (tx :: batch) = .ok (target :: schedule) := by
  unfold assign
  simp only [hvotes, hbest, bind, Except.bind]
  rcases htarget with rfl | ⟨rfl, hleast⟩
  · simp only [loadOf_ok hlt, hrest]
  · simp only [hleast, loadOf_ok hlt, hrest]

/-- The positions of a list, from the first on. -/
theorem forall_split_cons {α : Type} {P : List α → α → Prop} (x : α) (l : List α) :
    (∀ before y after, x :: l = before ++ y :: after → P before y) ↔
      P [] x ∧ ∀ before y after, l = before ++ y :: after → P (x :: before) y := by
  constructor
  · intro h
    refine ⟨h [] x l rfl, fun before y after he => h (x :: before) y after ?_⟩
    rw [he, List.cons_append]
  · rintro ⟨hhead, htail⟩ before y after he
    cases before with
    | nil =>
        cases he
        exact hhead
    | cons z before =>
        rw [List.cons_append, List.cons.injEq] at he
        obtain ⟨rfl, he⟩ := he
        exact htail before y after he

theorem owned_update {accounts : List ℕ} {target : ℕ} (hlocal : localUpdates.Owned n)
    (htarget : target < n) :
    Partition.Owned (fun a => if a ∈ accounts then some target else localUpdates a) n := by
  intro a e he
  dsimp only at he
  split at he
  · rw [Option.mem_some_iff] at he
    exact he ▸ htarget
  · exact hlocal a e he

/-- The two schedules are the same as long as no transaction is inverted. -/
theorem assign_agree (howned : partition.Owned n)
    (hparses : ∀ txBytes ∈ transactions, Parses partition txBytes)
    (hbatch : List.Forall₂ Simulated transactions batch) (hlocal : localUpdates.Owned n)
    (hloads : loads.length = n)
    (h : scheduleDynamic iter cap partition i localUpdates loads transactions = .ok txs) :
    ∃ schedule, assign cap partition localUpdates loads batch = .ok schedule ∧
      (txs.map Scheduled.target = schedule ↔ ∀ before tx after, txs = before ++ tx :: after →
        ¬ Inverted cap ((currentOwner partition localUpdates).movedBy before)
          (fun e => loads.getD e 0 + loadIn before e) tx.requiredAccounts) := by
  induction hbatch generalizing i localUpdates loads txs with
  | nil =>
      unfold scheduleDynamic at h
      obtain rfl := Except.ok.inj h
      refine ⟨[], rfl, iff_of_true rfl fun before tx after he => ?_⟩
      exact absurd he (by simp)
  | @cons txBytes tx transactions batch hsim hbatch ih =>
      rw [List.forall_mem_cons] at hparses
      obtain ⟨⟨sbTx, hparse, hknown⟩, hparses⟩ := hparses
      obtain ⟨sbTx', hparse', haccounts⟩ := hsim
      rw [hparse] at hparse'
      obtain rfl := Option.some.inj hparse'
      obtain ⟨header', hheader'⟩ := parse_of_payload hparse
      rcases scheduleDynamic_cons h with ⟨hheader, -⟩ | ⟨header, requiredAccounts, votes, best,
        target, rest, -, hreq, hvotes, hbest, htarget, hlt, hrest, rfl⟩
      · rw [hheader'] at hheader
        cases hheader
      have hrequired : requiredAccounts = sbTx.requiredAccounts := by
        unfold extractRequiredAccounts at hreq
        rw [hparse] at hreq
        exact (Except.ok.inj hreq).symm
      subst hrequired
      have hcurrent : (currentOwner partition localUpdates).Owned loads.length := by
        rw [hloads]
        intro a e he
        unfold currentOwner at he
        rcases Option.or_eq_some_iff.mp he with hl | ⟨-, hp⟩
        · exact hlocal a e hl
        · exact howned a e hp
      obtain ⟨votes', best', hvotes', hbest', hchoice⟩ :=
        exists_choice sbTx hknown hcurrent hvotes (iter.votes_perm i votes) hbest
      rw [← haccounts] at hvotes'
      have hupdate : ∀ t, (fun a => if a ∈ tx.accounts then some t else localUpdates a) =
          fun a => if a ∈ sbTx.requiredAccounts then some t else localUpdates a := by
        intro t
        funext a
        refine if_congr ?_ rfl rfl
        rw [haccounts, mem_fromKeys]
      have hlength : ∀ t, (loads.set t (loads.getD t 0 + 1)).length = n := by
        intro t
        rw [List.length_set, hloads]
      rw [forall_split_cons]
      by_cases hinv : Inverted cap (currentOwner partition localUpdates)
          (fun e => loads.getD e 0) sbTx.requiredAccounts
      · -- from here on the two may be in different states
        obtain ⟨e, e', rfl, rfl, hne, he⟩ := hchoice.differ hinv
        obtain rfl : e' = target := by
          rcases htarget with htarget | ⟨hnone, -⟩
          · exact Option.some.inj htarget
          · cases hnone
        have hnext : Partition.Owned
            (fun a => if a ∈ sbTx.requiredAccounts then some e else localUpdates a) n :=
          owned_update hlocal (hloads ▸ he)
        obtain ⟨txs', hok, -⟩ := scheduleDynamic_ok iter howned hnext (hlength e) hparses
        obtain ⟨schedule, hschedule, -⟩ := ih (i := 0) hparses hnext (hlength e) hok
        refine ⟨e :: schedule, assign_cons hvotes' hbest' (Or.inl rfl) he ?_, ?_⟩
        · rw [hupdate]
          exact hschedule
        · refine iff_of_false (fun heq => ?_) fun hnot => hnot.1 hinv
          exact absurd (List.cons.inj heq).1 hne.ne
      · obtain rfl := hchoice.agree hinv
        have htarget' : best' = some target ∨ best' = none ∧ leastLoaded loads = .ok target :=
          htarget.imp_right fun h => ⟨h.1, leastLoaded_of_fusion h.2⟩
        obtain ⟨schedule, hschedule, hiff⟩ :=
          ih hparses (owned_update hlocal (hloads ▸ hlt)) (hlength target) hrest
        refine ⟨target :: schedule, assign_cons hvotes' hbest' htarget' hlt ?_, ?_⟩
        · rw [hupdate]
          exact hschedule
        · have hhead : (((⟨txBytes, header, sbTx.requiredAccounts, target⟩ : Scheduled) ::
              rest).map Scheduled.target = target :: schedule) ↔
              rest.map Scheduled.target = schedule := by
            rw [List.map_cons, List.cons.injEq, and_iff_right rfl]
          rw [hhead, hiff, currentOwner_move]
          refine Iff.trans ?_ (and_iff_right hinv).symm
          refine forall_congr' fun before => forall_congr' fun y => ?_
          have hload : (fun e => (loads.set target (loads.getD target 0 + 1)).getD e 0 +
              loadIn before e) = fun e => loads.getD e 0 +
              loadIn (⟨txBytes, header, sbTx.requiredAccounts, target⟩ :: before) e := by
            funext e
            rw [getD_set_succ hlt, loadIn_cons]
            dsimp only
            omega
          rw [hload]
          rfl

/-! ## The two schedulers -/

/-- Up to `2 ^ 53` transactions the two bounds are the same. -/
theorem maxAllowed_eq_fusion {m n : ℕ} (hm : m < 2 ^ 53) (hn : n < 2 ^ 53) :
    Fusion.maxAllowed m n = maxAllowed m n := by
  unfold Fusion.maxAllowed maxAllowed
  rw [Double.round_natCast hm, Double.round_natCast hn]

/-- On transactions with one or two accounts the schedulers of the executor and of the simulator
    assign the same executors if and only if no transaction of two accounts comes when the
    owner of the second has as much load as that of the first, to spare, and a lower id. -/
theorem schedules_agree_iff (cfg : Settings) (iter : Iteration) (partition : Partition)
    (transactions : List Bytes) (batch : List Transaction) (hnew : cfg.useNewScheduler = true)
    (hn : 0 < cfg.numExecutors) (howned : partition.Owned cfg.numExecutors)
    (hparses : ∀ txBytes ∈ transactions, Parses partition txBytes)
    (hbatch : List.Forall₂ Simulated transactions batch) :
    ∃ txs schedule,
      parseAndScheduleBatchTransactions cfg iter partition transactions = .ok txs ∧
      txs.map Scheduled.txBytes = transactions ∧
      scheduler partition batch cfg.numExecutors = .ok schedule ∧
      (transactions.length < 2 ^ 53 → cfg.numExecutors < 2 ^ 32 →
        Fusion.maxAllowed transactions.length cfg.numExecutors =
          maxAllowed batch.length cfg.numExecutors) ∧
      (Fusion.maxAllowed transactions.length cfg.numExecutors =
          maxAllowed batch.length cfg.numExecutors →
        (txs.map Scheduled.target = schedule ↔ ∀ before tx after, txs = before ++ tx :: after →
          ¬ Inverted (maxAllowed batch.length cfg.numExecutors) (partition.movedBy before)
            (loadIn before) tx.requiredAccounts)) := by
  have hnone : Partition.Owned (fun _ => none) cfg.numExecutors := fun a e he => by cases he
  have hzero : (List.replicate cfg.numExecutors 0).length = cfg.numExecutors :=
    List.length_replicate
  obtain ⟨txs, hok, hmap, -⟩ := parseAndSchedule_ok cfg iter howned hparses
  have hdynamic := parseAndSchedule_new hnew hok
  -- the simulator with its own bound
  obtain ⟨txs', hok'⟩ : ∃ txs', scheduleDynamic iter
      (maxAllowed batch.length cfg.numExecutors) partition 0 (fun _ => none)
      (List.replicate cfg.numExecutors 0) transactions = .ok txs' := by
    obtain ⟨txs', hok', -⟩ := scheduleDynamic_ok iter howned hnone hzero hparses
    exact ⟨txs', hok'⟩
  obtain ⟨schedule, hschedule, hiff⟩ := assign_agree howned hparses hbatch hnone hzero hok'
  have hscheduler : scheduler partition batch cfg.numExecutors = .ok schedule := by
    unfold scheduler
    rw [if_neg hn.ne']
    exact hschedule
  refine ⟨txs, schedule, hok, hmap, hscheduler, fun hm hn32 => ?_, fun hcap => ?_⟩
  · rw [← hbatch.length_eq]
    exact maxAllowed_eq_fusion hm (hn32.trans (by decide))
  · rw [hcap, hok'] at hdynamic
    obtain rfl := Except.ok.inj hdynamic
    rw [hiff]
    refine forall_congr' fun before => forall_congr' fun tx => ?_
    have hload : (fun e => (List.replicate cfg.numExecutors 0).getD e 0 + loadIn before e) =
        loadIn before := by
      funext e
      rw [getD_replicate_zero, Nat.zero_add]
    rw [hload]
    rfl

namespace Sample

def settings : Settings := ⟨2, true, fun _ => none⟩

/-- Account 0 is with executor 1, account 1 is with executor 0. -/
def owners : Partition := fun a => if a < 2 then some (1 - a) else none

/-- The payment of nothing from one account to another. -/
def payment (a a' : UInt8) : Bytes :=
  List.replicate 17 0 ++ [a] ++ List.replicate 7 0 ++ [a', 4] ++ List.replicate 8 0

/-- It reads and writes both accounts. -/
def transaction (a a' : ℕ) : Transaction := ⟨0, [a, a'], [a, a']⟩

theorem simulated_outgoing : Simulated (payment 0 1) (transaction 0 1) :=
  ⟨⟨.sendPayment, 0, 1, .finite 0⟩, by decide +kernel, by decide⟩

theorem simulated_incoming : Simulated (payment 1 0) (transaction 1 0) :=
  ⟨⟨.sendPayment, 1, 0, .finite 0⟩, by decide +kernel, by decide⟩

theorem owned_owners : owners.Owned settings.numExecutors := by
  intro a e he
  unfold owners at he
  split at he
  · rw [← Option.some.inj he]
    show 1 - a < 2
    omega
  · cases he

theorem parses_outgoing : Parses owners (payment 0 1) :=
  ⟨⟨.sendPayment, 0, 1, .finite 0⟩, by decide +kernel, by decide⟩

theorem parses_incoming : Parses owners (payment 1 0) :=
  ⟨⟨.sendPayment, 1, 0, .finite 0⟩, by decide +kernel, by decide⟩

/-- What the executor makes of one transaction. -/
def outcome (txBytes : Bytes) : Option (List (List ℕ × ℕ)) :=
  (parseAndScheduleBatchTransactions settings default owners [txBytes]).toOption.map fun txs =>
    txs.map fun tx => (tx.requiredAccounts, tx.target)

theorem outcome_eq {txBytes : Bytes} {txs : List Scheduled}
    (h : parseAndScheduleBatchTransactions settings default owners [txBytes] = .ok txs) :
    outcome txBytes = some (txs.map fun tx => (tx.requiredAccounts, tx.target)) := by
  unfold outcome
  rw [h]
  rfl

theorem outcome_outgoing : outcome (payment 0 1) = some [([0, 1], 0)] := by decide +kernel

theorem outcome_incoming : outcome (payment 1 0) = some [([1, 0], 0)] := by decide +kernel

theorem scheduler_outgoing : scheduler owners [transaction 0 1] 2 = .ok [1] := by
  decide +kernel

end Sample

open Sample

/-- The first account is with the executor of the lower id. -/
theorem schedules_agree_iff_sample : ∃ txs,
    parseAndScheduleBatchTransactions settings default owners [payment 1 0] = .ok txs ∧
    scheduler owners [transaction 1 0] 2 = .ok (txs.map Scheduled.target) := by
  obtain ⟨txs, schedule, hok, -, hschedule, hcap, hiff⟩ :=
    schedules_agree_iff settings default owners [payment 1 0] [transaction 1 0] rfl (by decide)
      owned_owners (List.forall_mem_singleton.mpr parses_incoming) (.cons simulated_incoming .nil)
  refine ⟨txs, hok, ?_⟩
  rw [(hiff (hcap (by decide) (by decide))).mpr ?_]
  · exact hschedule
  · intro before tx after he
    have houtcome := (outcome_eq hok).symm.trans outcome_incoming
    rw [he, Option.some.injEq, List.map_append, List.map_cons] at houtcome
    cases before with
    | nil =>
        obtain ⟨haccounts, -⟩ := Prod.mk.inj (List.cons.inj houtcome).1
        rw [haccounts]
        rintro ⟨a, a', e, e', heq, he, he', hlt, -⟩
        cases heq
        cases he
        cases he'
        exact absurd hlt (by decide)
    | cons x before => exact absurd (congrArg List.length houtcome) (by simp)

/-- A payment from the account of executor 1 to one of executor 0, when both have no load. -/
theorem not_schedules_agree : ¬ ∀ (cfg : Settings) (iter : Iteration) (partition : Partition)
    (transactions : List Bytes) (batch : List Transaction), cfg.useNewScheduler = true →
    0 < cfg.numExecutors → partition.Owned cfg.numExecutors →
    (∀ txBytes ∈ transactions, Parses partition txBytes) →
    List.Forall₂ Simulated transactions batch →
    ∃ txs, parseAndScheduleBatchTransactions cfg iter partition transactions = .ok txs ∧
      scheduler partition batch cfg.numExecutors = .ok (txs.map Scheduled.target) := by
  intro h
  obtain ⟨txs, hok, hschedule⟩ := h settings default owners [payment 0 1] [transaction 0 1] rfl
    (by decide) owned_owners (List.forall_mem_singleton.mpr parses_outgoing)
    (.cons simulated_outgoing .nil)
  have houtcome := (outcome_eq hok).symm.trans outcome_outgoing
  have htargets := congrArg (List.map Prod.snd) (Option.some.inj houtcome)
  rw [List.map_map] at htargets
  have hsame : txs.map Scheduled.target = [0] := htargets
  rw [hsame] at hschedule
  cases hschedule.symm.trans scheduler_outgoing

end Flamingo

end DagBft.Simulator
