import Assise.Lib.Runs
import Mathlib.Data.Fintype.Basic
import Mathlib.Algebra.Ring.Nat
import Mathlib.Tactic.Common

-- The counters by which LibFS keeps track of the log headers of its next peer. Every load and store of a shared
-- counter is a step, and threads take turns in any order. `none` is a step that is not enabled, a failed assertion or a
-- panic.
namespace Assise.ReplicationCounts
open Lib.Runs Option Function

-- The end of `commit_log`: the header is persisted, the peer's counters are raised under their
-- lock, then `n_digest` of the log.
inductive Commit where
  | idle
  | persisted (nrLogBlocks : Nat)
  | counted
deriving DecidableEq, Repr

inductive Turn where
  | snapshot (nUnsync nUnsyncBlk : Nat)
  | blocksMoved (nTosync : Nat)
  | moved (nTosync : Nat)
  | pended (nTosync : Nat)
  | replicated (nTosync : Nat)
  | added (nTosync : Nat)
deriving DecidableEq, Repr

-- The thread is that of the digest request that runs the session, if one does.
inductive Session (Thread : Type) where
  | free
  | taken (by' : Option Thread) (turn : Turn)
deriving DecidableEq, Repr

inductive Requester where
  | idle
  | passed
  | began (percent : Nat)
  | loaded
  | syncing
  | waiting
  | checked
  | subtracted
  | localSent
deriving DecidableEq, Repr

-- `nDigest` is the peer's counter and `localDigest` that of the log; `unanswered` has the requests without an answer,
-- `clearing` is the handler of an answer before it clears `digesting`. The last five fields count headers: persisted,
-- given to RDMA writes, requested for digest, named to the peer, and answered.
structure State (Thread : Type) where
  nUnsync : Nat
  nUnsyncBlk : Nat
  nPending : Nat
  nDigest : Nat
  localDigest : Nat
  nDigestReq : Nat
  digesting : Bool
  commit : Commit
  session : Session Thread
  requester : Thread → Requester
  unanswered : List Nat
  clearing : Bool
  committed : Nat
  sent : Nat
  requested : Nat
  named : Nat
  answered : Nat

variable {Thread : Type}

def initial : State Thread where
  nUnsync := 0
  nUnsyncBlk := 0
  nPending := 0
  nDigest := 0
  localDigest := 0
  nDigestReq := 0
  digesting := false
  commit := .idle
  session := .free
  requester _ := .idle
  unanswered := []
  clearing := false
  committed := 0
  sent := 0
  requested := 0
  named := 0
  answered := 0

inductive Action (Thread : Type) where
  | persistLogHeader (extraBlocks : Nat)
  | updatePeerSyncState
  | countDigest
  | startSession (nBlk : Nat)
  | startSessionFor (i : Thread)
  | session
  | test (i : Thread)
  | setDigesting (i : Thread)
  | requestSync (i : Thread) (percent : Nat)
  | load (i : Thread)
  | compare (i : Thread)
  | assertEnough (i : Thread)
  | subtract (i : Thread)
  | sendLocal (i : Thread)
  | sendRemote (i : Thread)
  | handleDigestResponse
  | clearDigesting
deriving DecidableEq, Repr

variable [DecidableEq Thread]

def State.setRequester (s : State Thread) (i : Thread) (phase : Requester) : State Thread :=
  {s with requester := update s.requester i phase}

-- `atomic_fetch_sub` on a counter of 32 bits.
def fetchSub (counter n : Nat) : Nat := if n ≤ counter then counter - n else counter + 2 ^ 32 - n

def updatePeerSyncState (s : State Thread) : Option (State Thread) :=
  match s.commit with
  | .persisted nrLogBlocks =>
    some {s with nUnsync := s.nUnsync + 1, nUnsyncBlk := s.nUnsyncBlk + nrLogBlocks, commit := .counted}
  | _ => none

-- With no unsynchronised blocks, or fewer than asked for, there is nothing to do. `make_replication_request_sync` asks
-- for 0, a worker for what it finds behind a pointer to a stack frame that is gone.
def startRsyncSession (s : State Thread) (by' : Option Thread) (nBlk : Nat) : Option (State Thread) :=
  if s.nUnsyncBlk ≠ 0 ∧ nBlk ≤ s.nUnsyncBlk then some {s with session := .taken by' (.snapshot s.nUnsync s.nUnsyncBlk)}
  else none

def turnSession (s : State Thread) (by' : Option Thread) : Turn → Option (State Thread)
  | .snapshot nUnsync nUnsyncBlk =>
    some {s with nUnsyncBlk := fetchSub s.nUnsyncBlk nUnsyncBlk, session := .taken by' (.blocksMoved nUnsync)}
  | .blocksMoved nTosync => some {s with nUnsync := fetchSub s.nUnsync nTosync, session := .taken by' (.moved nTosync)}
  | .moved nTosync => some {s with nPending := s.nPending + nTosync, session := .taken by' (.pended nTosync)}
  | .pended nTosync => some {s with sent := s.sent + nTosync, session := .taken by' (.replicated nTosync)}
  | .replicated nTosync => some {s with nDigest := s.nDigest + nTosync, session := .taken by' (.added nTosync)}
  | .added nTosync =>
    let s := {s with nPending := fetchSub s.nPending nTosync, session := .free}
    some (by'.elim s fun i => s.setRequester i .waiting)

def continueSession (s : State Thread) : Option (State Thread) :=
  match s.session with
  | .free => none
  | .taken by' turn => turnSession s by' turn

-- The steps of a digest request. `n_digest_req` is a global variable.
def load (s : State Thread) (i : Thread) : Option (State Thread) :=
  match s.requester i with
  | .began percent => some {s.setRequester i .loaded with nDigestReq := percent * s.localDigest / 100}
  | _ => none

def compare (s : State Thread) (i : Thread) : State Thread :=
  if s.nDigest < s.nDigestReq then s.setRequester i .syncing else s.setRequester i .waiting

def subtract (s : State Thread) (i : Thread) : State Thread :=
  {s.setRequester i .subtracted with nDigest := fetchSub s.nDigest s.nDigestReq, requested := s.requested + s.nDigestReq}

-- A request for 0 headers asks the peer for all it can digest.
def rpcRemoteDigestAsync (s : State Thread) (i : Thread) : State Thread :=
  {s.setRequester i .idle with named := s.named + if s.nDigestReq = 0 then s.nDigest else s.nDigestReq}

def handleDigestResponse (s : State Thread) : Option (State Thread) :=
  match s.unanswered with
  | [] => none
  | nDigested :: rest =>
    if s.nDigestReq = nDigested then
      some { s with
        localDigest := fetchSub s.localDigest nDigested
        answered := s.answered + nDigested
        unanswered := rest
        clearing := true }
    else none

def step (s : State Thread) : Action Thread → Option (State Thread)
  | .persistLogHeader extraBlocks =>
    if s.commit = .idle then some {s with commit := .persisted (extraBlocks + 1), committed := s.committed + 1} else none
  | .updatePeerSyncState => updatePeerSyncState s
  | .countDigest => if s.commit = .counted then some {s with localDigest := s.localDigest + 1, commit := .idle} else none
  | .startSession nBlk => if s.session = .free then some ((startRsyncSession s none nBlk).getD s) else none
  | .startSessionFor i =>
    if s.session = .free ∧ s.requester i = .syncing then
      some ((startRsyncSession s (some i) 0).getD (s.setRequester i .waiting))
    else none
  | .session => continueSession s
  | .test i =>
    if s.requester i = .idle ∧ s.digesting = false ∧ 0 < s.localDigest then some (s.setRequester i .passed) else none
  | .setDigesting i =>
    if s.requester i = .passed then some {s.setRequester i (.began 100) with digesting := true} else none
  | .requestSync i percent => if s.requester i = .idle then some (s.setRequester i (.began percent)) else none
  | .load i => load s i
  | .compare i => if s.requester i = .loaded then some (compare s i) else none
  | .assertEnough i =>
    if s.requester i = .waiting ∧ s.nDigestReq ≤ s.nDigest then some (s.setRequester i .checked) else none
  | .subtract i => if s.requester i = .checked then some (subtract s i) else none
  | .sendLocal i =>
    if s.requester i = .subtracted then
      some {s.setRequester i .localSent with unanswered := s.unanswered ++ [s.nDigestReq]}
    else none
  | .sendRemote i => if s.requester i = .localSent then some (rpcRemoteDigestAsync s i) else none
  | .handleDigestResponse => handleDigestResponse s
  | .clearDigesting => if s.clearing then some {s with digesting := false, clearing := false} else none

variable {s s' next : State Thread} {i : Thread} {by' : Option Thread} {phase : Requester}

omit [DecidableEq Thread] in
theorem updatePeerSyncState_parts (updated : updatePeerSyncState s = some next) :
    ∃ nrLogBlocks, s.commit = .persisted nrLogBlocks ∧
      next = {s with nUnsync := s.nUnsync + 1, nUnsyncBlk := s.nUnsyncBlk + nrLogBlocks, commit := .counted} := by
  unfold updatePeerSyncState at updated
  split at updated
  · rename_i nrLogBlocks persisted
    exact ⟨nrLogBlocks,persisted,(Option.some.inj updated).symm⟩
  · cases updated

theorem continueSession_parts (continued : continueSession s = some next) :
    ∃ by' turn, s.session = .taken by' turn ∧ turnSession s by' turn = some next := by
  unfold continueSession at continued
  split at continued
  · cases continued
  · rename_i by' turn taken
    exact ⟨by',turn,taken,continued⟩

theorem load_parts (done : load s i = some next) :
    ∃ percent, s.requester i = .began percent ∧
      next = {s.setRequester i .loaded with nDigestReq := percent * s.localDigest / 100} := by
  unfold load at done
  split at done
  · rename_i percent began
    exact ⟨percent,began,(Option.some.inj done).symm⟩
  · cases done

omit [DecidableEq Thread] in
theorem handleDigestResponse_parts (handled : handleDigestResponse s = some next) :
    ∃ rest, s.unanswered = s.nDigestReq :: rest ∧
      next = { s with
        localDigest := fetchSub s.localDigest s.nDigestReq
        answered := s.answered + s.nDigestReq
        unanswered := rest
        clearing := true } := by
  unfold handleDigestResponse at handled
  split at handled
  · cases handled
  · rename_i nDigested rest waiting
    obtain ⟨rfl,same⟩ := ite_none_right_eq_some.mp handled
    exact ⟨rest,waiting,(Option.some.inj same).symm⟩

-- The headers a session holds at each turn: in `nUnsync`, in no counter, in `nPending`, sent but not in `nDigest`,
-- and in both.
def Turn.open : Turn → Nat
  | .snapshot nUnsync _ | .blocksMoved nUnsync => nUnsync
  | _ => 0

def Turn.openBlk : Turn → Nat
  | .snapshot _ nUnsyncBlk => nUnsyncBlk
  | _ => 0

def Turn.between : Turn → Nat
  | .moved nTosync => nTosync
  | _ => 0

def Turn.pending : Turn → Nat
  | .pended nTosync | .replicated nTosync | .added nTosync => nTosync
  | _ => 0

def Turn.underway : Turn → Nat
  | .moved nTosync | .pended nTosync => nTosync
  | _ => 0

def Turn.arrived : Turn → Nat
  | .replicated nTosync => nTosync
  | _ => 0

def Turn.twice : Turn → Nat
  | .added nTosync => nTosync
  | _ => 0

def Turn.coming : Turn → Nat
  | .snapshot nUnsync _ => nUnsync
  | .blocksMoved nTosync | .moved nTosync | .pended nTosync | .replicated nTosync => nTosync
  | .added _ => 0

def Session.of (count : Turn → Nat) : Session Thread → Nat
  | .free => 0
  | .taken _ turn => count turn

def Commit.uncounted : Commit → Nat
  | .persisted _ => 1
  | _ => 0

def Commit.late : Commit → Nat
  | .idle => 0
  | _ => 1

structure Balanced (s : State Thread) : Prop where
  pending : s.nPending = s.session.of Turn.pending
  digestible : s.nDigest + s.requested + s.session.of Turn.arrived = s.sent
  unsent : s.sent + s.nUnsync + s.session.of Turn.underway + s.commit.uncounted = s.committed
  localCount : s.localDigest + s.answered + s.commit.late = s.committed
  blocks : s.nUnsync + s.session.of Turn.openBlk ≤ s.nUnsyncBlk + s.session.of Turn.open
  opened : s.session.of Turn.open ≤ s.nUnsync ∧ s.session.of Turn.openBlk ≤ s.nUnsyncBlk
  persisted : ∀ nrLogBlocks, s.commit = .persisted nrLogBlocks → 0 < nrLogBlocks
  runs : ∀ i turn, s.session = .taken (some i) turn → s.requester i = .syncing

omit [DecidableEq Thread] in
theorem initial_balanced : Balanced (initial : State Thread) := by
  refine ⟨rfl,rfl,rfl,rfl,Nat.le_refl _,⟨Nat.le_refl _,Nat.le_refl _⟩,?_,?_⟩
  · intro nrLogBlocks persisted
    cases persisted
  · intro i turn taken
    cases taken

theorem Balanced.setRequester (balanced : Balanced s) (other : s.requester i ≠ .syncing)
    (phase : Requester) : Balanced (s.setRequester i phase) := by
  refine { balanced with runs := fun j turn taken => ?_ }
  have syncing := balanced.runs j turn taken
  have apart : j ≠ i := by
    rintro rfl
    exact other syncing
  exact (update_of_ne apart ..).trans syncing

omit [DecidableEq Thread] in
theorem Balanced.startSession (balanced : Balanced s) (free : s.session = .free) {nBlk : Nat}
    (syncing : ∀ i, by' = some i → s.requester i = .syncing)
    (started : startRsyncSession s by' nBlk = some next) : Balanced next := by
  obtain ⟨pending,digestible,unsent,localCount,blocks,opened,persisted,_⟩ := balanced
  rw [free] at pending digestible unsent
  obtain ⟨_,same⟩ := ite_none_right_eq_some.mp started
  cases same
  refine ⟨pending,digestible,unsent,localCount,Nat.le_of_eq (Nat.add_comm ..),⟨Nat.le_refl _,Nat.le_refl _⟩,persisted,?_⟩
  intro i turn taken
  cases taken
  exact syncing i rfl

theorem Balanced.turnSession (balanced : Balanced s) {turn : Turn}
    (taken : s.session = .taken by' turn) (turned : turnSession s by' turn = some next) : Balanced next := by
  obtain ⟨pending,digestible,unsent,localCount,blocks,opened,persisted,runs⟩ := balanced
  have same' : ∀ {later : Turn} i turn', Session.taken by' later = .taken (some i) turn' → s.requester i = .syncing := by
    intro later i turn' same
    obtain ⟨holder,_⟩ := Session.taken.inj same
    exact runs i turn (by rw [taken,holder])
  rw [taken] at pending digestible unsent blocks opened
  cases turn with
  | snapshot nUnsync nUnsyncBlk =>
    cases turned
    have enough : nUnsyncBlk ≤ s.nUnsyncBlk := opened.2
    refine ⟨pending,digestible,unsent,localCount,?_,⟨opened.1,Nat.zero_le _⟩,persisted,same'⟩
    · simp only [Session.of,Turn.openBlk,Turn.open,fetchSub,if_pos enough] at blocks ⊢
      omega
  | blocksMoved nTosync =>
    cases turned
    have enough : fetchSub s.nUnsync nTosync = s.nUnsync - nTosync := if_pos opened.1
    simp only [Session.of,Turn.openBlk,Turn.open,Turn.underway,Turn.pending,Turn.arrived] at *
    refine ⟨pending,digestible,?_,localCount,?_,⟨Nat.zero_le _,Nat.zero_le _⟩,persisted,same'⟩
    · simp only [Session.of,Turn.underway]
      omega
    · simp only [Session.of,Turn.openBlk,Turn.open]
      omega
  | moved nTosync =>
    cases turned
    refine ⟨?_,digestible,unsent,localCount,blocks,⟨Nat.zero_le _,Nat.zero_le _⟩,persisted,same'⟩
    · simp only [Session.of,Turn.pending] at pending ⊢
      omega
  | pended nTosync =>
    cases turned
    refine ⟨pending,?_,?_,localCount,blocks,⟨Nat.zero_le _,Nat.zero_le _⟩,persisted,same'⟩
    · simp only [Session.of,Turn.arrived] at digestible ⊢
      omega
    · simp only [Session.of,Turn.underway] at unsent ⊢
      omega
  | replicated nTosync =>
    cases turned
    refine ⟨pending,?_,unsent,localCount,blocks,⟨Nat.zero_le _,Nat.zero_le _⟩,persisted,same'⟩
    · simp only [Session.of,Turn.arrived] at digestible ⊢
      omega
  | added nTosync =>
    have released : Balanced {s with nPending := fetchSub s.nPending nTosync, session := .free} := by
      refine ⟨?_,digestible,unsent,localCount,blocks,⟨Nat.zero_le _,Nat.zero_le _⟩,persisted,nofun⟩
      simp only [Session.of,Turn.pending,fetchSub] at pending ⊢
      rw [if_pos (Nat.le_of_eq pending.symm)]
      omega
    cases by' with
    | none =>
      cases turned
      exact released
    | some i =>
      cases turned
      exact ⟨released.pending,digestible,unsent,localCount,blocks,⟨Nat.zero_le _,Nat.zero_le _⟩,persisted,nofun⟩

omit [DecidableEq Thread] in
theorem ne_syncing (at' : s.requester i = phase) (other : phase ≠ .syncing) :
    s.requester i ≠ .syncing := by
  rw [at']
  exact other

def Settled (s : State Thread) : Prop := s.unanswered = [] ∧ s.requested = s.answered

def Answering (s : State Thread) : Prop :=
  Settled s ∨ (s.unanswered = [s.nDigestReq] ∧ s.requested = s.answered + s.nDigestReq ∧ s.nDigestReq ≤ s.localDigest)

def Stage (s : State Thread) (i : Thread) : Requester → Prop
  | .idle => s.named = s.requested ∧ Answering s
  | .passed => s.named = s.requested ∧ Settled s ∧ 0 < s.localDigest
  | .began percent => s.named = s.requested ∧ Settled s ∧ percent ≤ 100 ∧ 100 ≤ percent * s.localDigest
  | .loaded => s.named = s.requested ∧ Settled s ∧ 0 < s.nDigestReq ∧ s.nDigestReq ≤ s.localDigest
  | .syncing => (s.named = s.requested ∧ Settled s ∧ 0 < s.nDigestReq ∧ s.nDigestReq ≤ s.localDigest) ∧
      ∀ turn, s.session = .taken (some i) turn → s.nDigestReq ≤ s.nDigest + turn.coming
  | .waiting | .checked =>
      (s.named = s.requested ∧ Settled s ∧ 0 < s.nDigestReq ∧ s.nDigestReq ≤ s.localDigest) ∧ s.nDigestReq ≤ s.nDigest
  | .subtracted => s.named + s.nDigestReq = s.requested ∧ 0 < s.nDigestReq ∧ s.unanswered = [] ∧
      s.requested = s.answered + s.nDigestReq ∧ s.nDigestReq ≤ s.localDigest
  | .localSent => s.named + s.nDigestReq = s.requested ∧ 0 < s.nDigestReq ∧ Answering s

def Orderly (s : State Thread) : Prop := ∃ i, (∀ j, j ≠ i → s.requester j = .idle) ∧ Stage s i (s.requester i)

-- A request begins when no other request is under way or unanswered, and it is for all or for a part
-- of the headers that is not rounded to none.
def Fair (s : State Thread) : Action Thread → Prop
  | .test _ => (∀ j, s.requester j = .idle) ∧ s.unanswered = []
  | .requestSync _ percent =>
    ((∀ j, s.requester j = .idle) ∧ s.unanswered = []) ∧ percent ≤ 100 ∧ 100 ≤ percent * s.localDigest
  | _ => True

structure Undisturbed (s s' : State Thread) : Prop where
  named : s'.named = s.named
  requested : s'.requested = s.requested
  answered : s'.answered = s.answered
  unanswered : s'.unanswered = s.unanswered
  nDigestReq : s'.nDigestReq = s.nDigestReq
  localDigest : s.localDigest ≤ s'.localDigest
  nDigest : s.nDigest ≤ s'.nDigest

omit [DecidableEq Thread] in
theorem Undisturbed.settled (same : Undisturbed s s') : Settled s' ↔ Settled s := by
  unfold Settled
  rw [same.unanswered,same.requested,same.answered]

omit [DecidableEq Thread] in
theorem Undisturbed.answering (same : Undisturbed s s') (answering : Answering s) : Answering s' := by
  unfold Answering
  rw [same.settled,same.unanswered,same.requested,same.answered,same.nDigestReq]
  exact answering.imp_right fun ⟨one,answered,wanted⟩ => ⟨one,answered,Nat.le_trans wanted same.localDigest⟩

omit [DecidableEq Thread] in
theorem Stage.mono (same : Undisturbed s s')
    (session : ∀ turn, s'.session = .taken (some i) turn →
      ∃ before, s.session = .taken (some i) before ∧ s.nDigest + before.coming ≤ s'.nDigest + turn.coming)
    (stage : Stage s i phase) : Stage s' i phase := by
  have more := same.localDigest
  have enough := same.nDigest
  cases phase with
  | idle =>
    unfold Stage at stage ⊢
    rw [same.named,same.requested]
    exact stage.imp_right same.answering
  | passed =>
    unfold Stage at stage ⊢
    rw [same.named,same.requested,same.settled]
    exact ⟨stage.1,stage.2.1,Nat.lt_of_lt_of_le stage.2.2 more⟩
  | began percent =>
    unfold Stage at stage ⊢
    rw [same.named,same.requested,same.settled]
    exact ⟨stage.1,stage.2.1,stage.2.2.1,Nat.le_trans stage.2.2.2 (Nat.mul_le_mul_left percent more)⟩
  | loaded =>
    unfold Stage at stage ⊢
    rw [same.named,same.requested,same.settled,same.nDigestReq]
    exact ⟨stage.1,stage.2.1,stage.2.2.1,Nat.le_trans stage.2.2.2 more⟩
  | syncing =>
    unfold Stage at stage ⊢
    rw [same.named,same.requested,same.settled,same.nDigestReq]
    obtain ⟨⟨named,settled,positive,wanted⟩,coming⟩ := stage
    refine ⟨⟨named,settled,positive,Nat.le_trans wanted more⟩,fun turn taken => ?_⟩
    obtain ⟨before,taken',grows⟩ := session turn taken
    exact Nat.le_trans (coming before taken') grows
  | waiting | checked =>
    unfold Stage at stage ⊢
    rw [same.named,same.requested,same.settled,same.nDigestReq]
    obtain ⟨⟨named,settled,positive,wanted⟩,there⟩ := stage
    exact ⟨⟨named,settled,positive,Nat.le_trans wanted more⟩,Nat.le_trans there enough⟩
  | subtracted =>
    unfold Stage at stage ⊢
    rw [same.named,same.requested,same.answered,same.unanswered,same.nDigestReq]
    obtain ⟨named,positive,nothing,answered,wanted⟩ := stage
    exact ⟨named,positive,nothing,answered,Nat.le_trans wanted more⟩
  | localSent =>
    unfold Stage at stage ⊢
    rw [same.named,same.requested,same.nDigestReq]
    exact ⟨stage.1,stage.2.1,same.answering stage.2.2⟩

omit [DecidableEq Thread] in
theorem Orderly.mono (orderly : Orderly s) (same : Undisturbed s s')
    (requesters : s'.requester = s.requester)
    (session : ∀ i turn, s'.session = .taken (some i) turn →
      ∃ before, s.session = .taken (some i) before ∧ s.nDigest + before.coming ≤ s'.nDigest + turn.coming) :
    Orderly s' := by
  obtain ⟨i,others,stage⟩ := orderly
  refine ⟨i,?_,?_⟩
  · rwa [requesters]
  · rw [requesters]
    exact stage.mono same (session i)

omit [DecidableEq Thread] in
theorem Orderly.at (orderly : Orderly s) (here : s.requester i = phase)
    (busy : phase ≠ .idle) : (∀ j, j ≠ i → s.requester j = .idle) ∧ Stage s i phase := by
  obtain ⟨k,others,stage⟩ := orderly
  have same : i = k := by
    by_contra apart
    rw [others i apart] at here
    exact busy here.symm
  subst same
  rw [here] at stage
  exact ⟨others,stage⟩

-- Only a request that has been sent is answered.
omit [DecidableEq Thread] in
theorem Orderly.answered {rest : List Nat} (orderly : Orderly s) (waiting : s.unanswered = s.nDigestReq :: rest) :
    (s.requested = s.answered + s.nDigestReq ∧ rest = [] ∧ s.nDigestReq ≤ s.localDigest) ∧
      ∃ i, (∀ j, j ≠ i → s.requester j = .idle) ∧ (s.requester i = .idle ∧ s.named = s.requested ∨
        s.requester i = .localSent ∧ s.named + s.nDigestReq = s.requested ∧ 0 < s.nDigestReq) := by
  have last : Answering s → s.requested = s.answered + s.nDigestReq ∧ rest = [] ∧ s.nDigestReq ≤ s.localDigest := by
    rintro (⟨nothing,_⟩ | ⟨one,answered,wanted⟩)
    · rw [waiting] at nothing
      cases nothing
    · rw [waiting] at one
      exact ⟨answered,(List.cons.inj one).2,wanted⟩
  have sentOne : s.unanswered ≠ [] := by
    rw [waiting]
    simp
  obtain ⟨i,others,stage⟩ := orderly
  cases phase : s.requester i with
  | idle =>
    rw [phase] at stage
    exact ⟨last stage.2,i,others,.inl ⟨phase,stage.1⟩⟩
  | localSent =>
    rw [phase] at stage
    exact ⟨last stage.2.2,i,others,.inr ⟨phase,stage.1,stage.2.1⟩⟩
  | passed | began percent | loaded =>
    rw [phase] at stage
    exact absurd stage.2.1.1 sentOne
  | syncing | waiting | checked =>
    rw [phase] at stage
    exact absurd stage.1.2.1.1 sentOne
  | subtracted =>
    rw [phase] at stage
    exact absurd stage.2.2.1 sentOne

theorem Balanced.step {a : Action Thread} (balanced : Balanced s) (orderly : Orderly s)
    (stepped : step s a = some next) : Balanced next := by
  cases a with
  | persistLogHeader extraBlocks =>
    obtain ⟨idle,same⟩ := ite_none_right_eq_some.mp stepped
    have unsent := balanced.unsent
    have localCount := balanced.localCount
    cases same
    rw [idle] at unsent localCount
    refine { balanced with unsent := congrArg (· + 1) unsent,localCount := congrArg (· + 1) localCount,persisted := ?_ }
    intro nrLogBlocks persisted
    cases persisted
    exact Nat.succ_pos extraBlocks
  | updatePeerSyncState =>
    obtain ⟨pending,digestible,unsent,localCount,blocks,opened,persisted,runs⟩ := balanced
    obtain ⟨nrLogBlocks,commit,rfl⟩ := updatePeerSyncState_parts stepped
    have positive := persisted _ commit
    rw [commit] at unsent localCount
    refine ⟨pending,digestible,?_,localCount,?_,⟨Nat.le_succ_of_le opened.1,Nat.le_add_right_of_le opened.2⟩,nofun,runs⟩
    · simp only [Commit.uncounted] at unsent ⊢
      omega
    · dsimp only
      omega
  | countDigest =>
    obtain ⟨counted,same⟩ := ite_none_right_eq_some.mp stepped
    have unsent := balanced.unsent
    have localCount := balanced.localCount
    cases same
    rw [counted] at unsent localCount
    refine { balanced with unsent,localCount := ?_,persisted := nofun }
    simp only [Commit.late] at localCount ⊢
    omega
  | startSession nBlk =>
    obtain ⟨free,same⟩ := ite_none_right_eq_some.mp stepped
    cases started : startRsyncSession s none nBlk with
    | none =>
      rw [started] at same
      cases same
      exact balanced
    | some after =>
      rw [started] at same
      cases same
      refine balanced.startSession free (fun i holder => ?_) started
      cases holder
  | startSessionFor i =>
    obtain ⟨⟨free,syncing⟩,same⟩ := ite_none_right_eq_some.mp stepped
    cases started : startRsyncSession s (some i) 0 with
    | none =>
      rw [started] at same
      cases same
      refine { balanced with runs := fun j turn taken => ?_ }
      have taken : s.session = .taken (some j) turn := taken
      rw [free] at taken
      cases taken
    | some after =>
      rw [started] at same
      cases same
      refine balanced.startSession free (fun j holder => ?_) started
      cases holder
      exact syncing
  | session =>
    obtain ⟨by',turn,taken,turned⟩ := continueSession_parts stepped
    exact balanced.turnSession taken turned
  | test i =>
    obtain ⟨⟨idle,_⟩,same⟩ := ite_none_right_eq_some.mp stepped
    cases same
    exact balanced.setRequester (ne_syncing idle nofun) _
  | setDigesting i =>
    obtain ⟨passed,same⟩ := ite_none_right_eq_some.mp stepped
    have kept := balanced.setRequester (ne_syncing passed nofun) (.began 100)
    cases same
    exact { kept with }
  | requestSync i percent =>
    obtain ⟨idle,same⟩ := ite_none_right_eq_some.mp stepped
    cases same
    exact balanced.setRequester (ne_syncing idle nofun) _
  | load i =>
    obtain ⟨percent,began,rfl⟩ := load_parts stepped
    have kept := balanced.setRequester (ne_syncing began nofun) .loaded
    exact { kept with }
  | compare i =>
    obtain ⟨loaded,same⟩ := ite_none_right_eq_some.mp stepped
    cases same
    unfold compare
    split <;> exact balanced.setRequester (ne_syncing loaded nofun) _
  | assertEnough i =>
    obtain ⟨⟨waiting,_⟩,same⟩ := ite_none_right_eq_some.mp stepped
    cases same
    exact balanced.setRequester (ne_syncing waiting nofun) _
  | subtract i =>
    obtain ⟨checked,same⟩ := ite_none_right_eq_some.mp stepped
    have enough := (orderly.at checked (by simp)).2.2
    have kept := balanced.setRequester (ne_syncing checked nofun) .subtracted
    have digestible := balanced.digestible
    cases same
    refine { kept with digestible := ?_ }
    change fetchSub s.nDigest s.nDigestReq + (s.requested + s.nDigestReq) + s.session.of Turn.arrived = s.sent
    rw [fetchSub,if_pos enough]
    omega
  | sendLocal i =>
    obtain ⟨subtracted,same⟩ := ite_none_right_eq_some.mp stepped
    have kept := balanced.setRequester (ne_syncing subtracted nofun) .localSent
    cases same
    exact { kept with }
  | sendRemote i =>
    obtain ⟨localSent,same⟩ := ite_none_right_eq_some.mp stepped
    have kept := balanced.setRequester (ne_syncing localSent nofun) .idle
    cases same
    exact { kept with }
  | handleDigestResponse =>
    obtain ⟨rest,waiting,rfl⟩ := handleDigestResponse_parts stepped
    obtain ⟨⟨_,_,enough⟩,_⟩ := orderly.answered waiting
    refine { balanced with localCount := ?_ }
    have count := balanced.localCount
    dsimp only
    rw [fetchSub,if_pos enough]
    omega
  | clearDigesting =>
    obtain ⟨_,same⟩ := ite_none_right_eq_some.mp stepped
    cases same
    exact { balanced with }

theorem orderly_of_stage (others : ∀ j, j ≠ i → s.requester j = .idle)
    (requesters : s'.requester = update s.requester i phase) (stage : Stage s' i phase) :
    Orderly s' := by
  refine ⟨i,fun j apart => ?_,?_⟩
  · rw [requesters,update_of_ne apart]
    exact others j apart
  · rw [requesters,update_self]
    exact stage

omit [DecidableEq Thread] in
theorem Balanced.enough (balanced : Balanced s) (free : s.session = .free) (settled : Settled s)
    (wanted : s.nDigestReq ≤ s.localDigest) : s.nDigestReq ≤ s.nDigest + s.nUnsync := by
  obtain ⟨_,digestible,unsent,localCount,_,_,_,_⟩ := balanced
  rw [free] at digestible unsent
  have answered := settled.2
  have less : s.commit.uncounted ≤ s.commit.late := by
    cases s.commit <;> simp [Commit.uncounted,Commit.late]
  simp only [Session.of] at digestible unsent
  omega

theorem Orderly.turnSession (balanced : Balanced s) (orderly : Orderly s)
    {turn : Turn} (taken : s.session = .taken by' turn) (turned : turnSession s by' turn = some next) : Orderly next := by
  -- The turns before the last one only bring headers nearer.
  have nearer : ∀ {later : Turn}, next.session = .taken by' later →
      s.nDigest + turn.coming ≤ next.nDigest + later.coming → ∀ i turn', next.session = .taken (some i) turn' →
      ∃ before, s.session = .taken (some i) before ∧ s.nDigest + before.coming ≤ next.nDigest + turn'.coming := by
    intro later session grows i turn' same
    rw [session] at same
    obtain ⟨rfl,rfl⟩ := Session.taken.inj same
    exact ⟨turn,taken,grows⟩
  cases turn with
  | snapshot nUnsync nUnsyncBlk | blocksMoved nTosync | moved nTosync | pended nTosync =>
    cases turned
    exact orderly.mono ⟨rfl,rfl,rfl,rfl,rfl,Nat.le_refl _,Nat.le_refl _⟩ rfl (nearer rfl (Nat.le_refl _))
  | replicated nTosync =>
    cases turned
    exact orderly.mono ⟨rfl,rfl,rfl,rfl,rfl,Nat.le_refl _,Nat.le_add_right ..⟩ rfl (nearer rfl (Nat.le_refl _))
  | added nTosync =>
    cases by' with
    | none =>
      cases turned
      exact orderly.mono ⟨rfl,rfl,rfl,rfl,rfl,Nat.le_refl _,Nat.le_refl _⟩ rfl nofun
    | some i =>
      cases turned
      obtain ⟨others,asked,coming⟩ := orderly.at (balanced.runs i _ taken) (by simp)
      exact orderly_of_stage others rfl ⟨asked,coming _ taken⟩

theorem Orderly.step {a : Action Thread} (balanced : Balanced s) (orderly : Orderly s)
    (fair : Fair s a) (stepped : step s a = some next) : Orderly next := by
  have still : ∀ {s' : State Thread}, s'.session = s.session → s.nDigest ≤ s'.nDigest → ∀ i turn,
      s'.session = .taken (some i) turn →
      ∃ before, s.session = .taken (some i) before ∧ s.nDigest + before.coming ≤ s'.nDigest + turn.coming := by
    intro s' session more i turn taken
    rw [session] at taken
    exact ⟨turn,taken,Nat.add_le_add_right more _⟩
  cases a with
  | persistLogHeader extraBlocks | clearDigesting =>
    obtain ⟨_,same⟩ := ite_none_right_eq_some.mp stepped
    cases same
    exact orderly.mono ⟨rfl,rfl,rfl,rfl,rfl,Nat.le_refl _,Nat.le_refl _⟩ rfl (still rfl (Nat.le_refl _))
  | updatePeerSyncState =>
    obtain ⟨nrLogBlocks,_,rfl⟩ := updatePeerSyncState_parts stepped
    exact orderly.mono ⟨rfl,rfl,rfl,rfl,rfl,Nat.le_refl _,Nat.le_refl _⟩ rfl (still rfl (Nat.le_refl _))
  | countDigest =>
    obtain ⟨_,same⟩ := ite_none_right_eq_some.mp stepped
    cases same
    exact orderly.mono ⟨rfl,rfl,rfl,rfl,rfl,Nat.le_succ _,Nat.le_refl _⟩ rfl (still rfl (Nat.le_refl _))
  | startSession nBlk =>
    obtain ⟨_,same⟩ := ite_none_right_eq_some.mp stepped
    cases started : startRsyncSession s none nBlk with
    | none =>
      rw [started] at same
      cases same
      exact orderly
    | some after =>
      rw [started] at same
      cases same
      obtain ⟨_,same⟩ := ite_none_right_eq_some.mp started
      cases same
      exact orderly.mono ⟨rfl,rfl,rfl,rfl,rfl,Nat.le_refl _,Nat.le_refl _⟩ rfl nofun
  | startSessionFor i =>
    obtain ⟨⟨free,syncing⟩,same⟩ := ite_none_right_eq_some.mp stepped
    obtain ⟨others,⟨named,settled,positive,wanted⟩,_⟩ := orderly.at syncing (by simp)
    have enough := balanced.enough free settled wanted
    cases started : startRsyncSession s (some i) 0 with
    | none =>
      rw [started] at same
      cases same
      -- With no blocks there are no headers either.
      have nothing : s.nUnsync = 0 := by
        have blocks := balanced.blocks
        rw [free] at blocks
        have zero : s.nUnsyncBlk = 0 := by
          by_contra some'
          rw [startRsyncSession,if_pos ⟨some',Nat.zero_le _⟩] at started
          cases started
        simp only [Session.of] at blocks
        omega
      rw [nothing] at enough
      exact orderly_of_stage others rfl ⟨⟨named,settled,positive,wanted⟩,enough⟩
    | some after =>
      rw [started] at same
      cases same
      obtain ⟨_,same⟩ := ite_none_right_eq_some.mp started
      cases same
      have still' : s.requester = update s.requester i .syncing := by
        rw [←syncing,update_eq_self]
      refine orderly_of_stage others still' ⟨⟨named,settled,positive,wanted⟩,fun turn taken => ?_⟩
      cases taken
      exact enough
  | session =>
    obtain ⟨by',turn,taken,turned⟩ := continueSession_parts stepped
    exact orderly.turnSession balanced taken turned
  | test i =>
    obtain ⟨⟨_,_,some'⟩,same⟩ := ite_none_right_eq_some.mp stepped
    cases same
    obtain ⟨quiet,nothing⟩ := fair
    obtain ⟨k,_,stage⟩ := orderly
    rw [quiet k] at stage
    obtain ⟨named,settled | ⟨one,_⟩⟩ := stage
    · exact orderly_of_stage (fun j _ => quiet j) rfl ⟨named,settled,some'⟩
    · rw [nothing] at one
      cases one
  | setDigesting i =>
    obtain ⟨passed,same⟩ := ite_none_right_eq_some.mp stepped
    obtain ⟨others,named,settled,some'⟩ := orderly.at passed (by simp)
    cases same
    exact orderly_of_stage others rfl ⟨named,settled,Nat.le_refl _,Nat.le_mul_of_pos_right _ some'⟩
  | requestSync i percent =>
    obtain ⟨_,same⟩ := ite_none_right_eq_some.mp stepped
    cases same
    obtain ⟨⟨quiet,nothing⟩,part⟩ := fair
    obtain ⟨k,_,stage⟩ := orderly
    rw [quiet k] at stage
    obtain ⟨named,settled | ⟨one,_⟩⟩ := stage
    · exact orderly_of_stage (fun j _ => quiet j) rfl ⟨named,settled,part⟩
    · rw [nothing] at one
      cases one
  | load i =>
    obtain ⟨percent,began,rfl⟩ := load_parts stepped
    obtain ⟨others,named,settled,part,positive⟩ := orderly.at began (by simp)
    refine orderly_of_stage others rfl ⟨named,settled,Nat.div_pos positive (by decide),?_⟩
    refine Nat.div_le_of_le_mul ?_
    exact Nat.mul_le_mul_right _ part
  | compare i =>
    obtain ⟨loaded,same⟩ := ite_none_right_eq_some.mp stepped
    obtain ⟨others,named,settled,positive,wanted⟩ := orderly.at loaded (by simp)
    cases same
    unfold compare
    split
    · refine orderly_of_stage others rfl ⟨⟨named,settled,positive,wanted⟩,fun turn taken => ?_⟩
      -- No session is run for a request that is not waiting for one.
      have syncing := balanced.runs i turn taken
      rw [loaded] at syncing
      cases syncing
    · rename_i enough
      exact orderly_of_stage others rfl ⟨⟨named,settled,positive,wanted⟩,Nat.le_of_not_lt enough⟩
  | assertEnough i =>
    obtain ⟨⟨waiting,_⟩,same⟩ := ite_none_right_eq_some.mp stepped
    obtain ⟨others,stage⟩ := orderly.at waiting (by simp)
    cases same
    exact orderly_of_stage others rfl stage
  | subtract i =>
    obtain ⟨checked,same⟩ := ite_none_right_eq_some.mp stepped
    obtain ⟨others,⟨named,settled,positive,wanted⟩,_⟩ := orderly.at checked (by simp)
    cases same
    exact orderly_of_stage others rfl ⟨congrArg (· + s.nDigestReq) named,positive,settled.1,
      congrArg (· + s.nDigestReq) settled.2,wanted⟩
  | sendLocal i =>
    obtain ⟨subtracted,same⟩ := ite_none_right_eq_some.mp stepped
    obtain ⟨others,named,positive,nothing,answered,wanted⟩ := orderly.at subtracted (by simp)
    cases same
    refine orderly_of_stage others rfl ⟨named,positive,.inr ⟨?_,answered,wanted⟩⟩
    dsimp only
    rw [nothing]
    rfl
  | sendRemote i =>
    obtain ⟨localSent,same⟩ := ite_none_right_eq_some.mp stepped
    obtain ⟨others,named,positive,answering⟩ := orderly.at localSent (by simp)
    cases same
    unfold rpcRemoteDigestAsync
    rw [if_neg (Nat.pos_iff_ne_zero.mp positive)]
    exact orderly_of_stage others rfl ⟨named,answering⟩
  | handleDigestResponse =>
    obtain ⟨rest,waiting,rfl⟩ := handleDigestResponse_parts stepped
    obtain ⟨⟨answered,rfl,_⟩,i,others,⟨idle,named⟩ | ⟨sent,named⟩⟩ := orderly.answered waiting
    · refine ⟨i,others,?_⟩
      dsimp only
      rw [idle]
      exact ⟨named,.inl ⟨rfl,answered⟩⟩
    · refine ⟨i,others,?_⟩
      dsimp only
      rw [sent]
      exact ⟨named.1,named.2,.inl ⟨rfl,answered⟩⟩

omit [DecidableEq Thread] in
theorem initial_orderly (i : Thread) : Orderly (initial : State Thread) := ⟨i,fun _ _ => rfl,rfl,.inl ⟨rfl,rfl⟩⟩

-- The counts add up but for the headers that a session has between two counters or in two, and for a persisted header
-- that is not yet counted.
omit [DecidableEq Thread] in
theorem Balanced.sum (balanced : Balanced s) :
    s.nUnsync + s.nPending + s.nDigest + s.requested + s.session.of Turn.between + s.commit.uncounted =
      s.committed + s.session.of Turn.twice := by
  obtain ⟨pending,digestible,unsent,_⟩ := balanced
  rw [pending]
  cases session : s.session with
  | free =>
    rw [session] at digestible unsent
    simp only [Session.of] at digestible unsent ⊢
    omega
  | taken by' turn =>
    rw [session] at digestible unsent
    cases turn with
    | snapshot _ _ | blocksMoved _ | moved _ | pended _ | replicated _ | added _ =>
      simp only [Session.of,Turn.arrived,Turn.underway,Turn.pending,Turn.between,Turn.twice] at digestible unsent ⊢
      omega

omit [DecidableEq Thread] in
theorem Orderly.named_le (orderly : Orderly s) : s.named ≤ s.requested := by
  obtain ⟨i,_,stage⟩ := orderly
  cases phase : s.requester i with
  | idle | passed | began _ | loaded =>
    rw [phase] at stage
    exact Nat.le_of_eq stage.1
  | syncing | waiting | checked =>
    rw [phase] at stage
    exact Nat.le_of_eq stage.1.1
  | subtracted | localSent =>
    rw [phase] at stage
    exact Nat.le_of_add_right_le (Nat.le_of_eq stage.1)

-- With no session and no commit between two counters, the peer's counts add up to the committed headers not yet
-- requested; a request that has waited finds the headers it asks for; and the headers named to the peer have been
-- sent.
theorem counts_add_up (actions : List (Action Thread)) (i : Thread) (s : State Thread)
    (fair : Guarded step Fair initial actions) (reached : run step initial actions = some s) :
    (s.session = .free → s.commit = .idle → s.nUnsync + s.nPending + s.nDigest + s.requested = s.committed) ∧
      (s.requester i = .waiting ∨ s.requester i = .checked → s.nDigestReq ≤ s.nDigest) ∧
      s.named ≤ s.sent := by
  obtain ⟨balanced,orderly⟩ : Balanced s ∧ Orderly s := invariant_run step Fair (fun s => Balanced s ∧ Orderly s)
    (fun s a next kept fair stepped => ⟨kept.1.step kept.2 stepped,kept.2.step kept.1 fair stepped⟩) initial s actions
    ⟨initial_balanced,initial_orderly i⟩ fair reached
  refine ⟨fun free idle => ?_,fun busy => ?_,?_⟩
  · have sum := balanced.sum
    rw [free,idle] at sum
    exact sum
  · rcases busy with waiting | checked
    · exact (orderly.at waiting (by simp)).2.2
    · exact (orderly.at checked (by simp)).2.2
  · have digestible := balanced.digestible
    have named := orderly.named_le
    omega

instance [Fintype Thread] (s : State Thread) : (a : Action Thread) → Decidable (Fair s a)
  | .test _ => inferInstanceAs (Decidable ((∀ j, s.requester j = .idle) ∧ s.unanswered = []))
  | .requestSync _ percent => inferInstanceAs (Decidable
      (((∀ j, s.requester j = .idle) ∧ s.unanswered = []) ∧ percent ≤ 100 ∧ 100 ≤ percent * s.localDigest))
  | .persistLogHeader _ | .updatePeerSyncState | .countDigest | .startSession _ | .startSessionFor _ | .session
  | .setDigesting _ | .load _ | .compare _ | .assertEnough _ | .subtract _ | .sendLocal _ | .sendRemote _
  | .handleDigestResponse | .clearDigesting => .isTrue trivial

def oneCommit : List (Action (Fin 2)) := [.persistLogHeader 3,.updatePeerSyncState,.countDigest]

def wholeSession : List (Action (Fin 2)) := List.replicate 6 .session

def fairRun : List (Action (Fin 2)) :=
  oneCommit ++ .startSession 1 :: wholeSession ++ oneCommit ++
    [.test 0,.setDigesting 0,.load 0,.compare 0,.startSessionFor 0] ++ wholeSession ++
    [.persistLogHeader 0,.assertEnough 0,.subtract 0,.sendLocal 0,.sendRemote 0,.updatePeerSyncState]

theorem counts_add_up_fair : ∃ s, run step initial fairRun = some s ∧ s.named = 2 ∧ s.nUnsync = 1 ∧ s.named ≤ s.sent := by
  obtain ⟨s,reached,named,unsync⟩ : ∃ s, run step initial fairRun = some s ∧ s.named = 2 ∧ s.nUnsync = 1 := by decide +kernel
  exact ⟨s,reached,named,unsync,(counts_add_up fairRun 0 s (by decide +kernel) reached).2.2⟩

-- Two requests pass the test before either sets `digesting`: the second asks for a header that the first has
-- requested.
def overlapping : List (Action (Fin 2)) :=
  oneCommit ++ [.test 0,.test 1,.setDigesting 0,.setDigesting 1,.load 0,.compare 0,.startSessionFor 0] ++ wholeSession ++
    [.assertEnough 0,.subtract 0,.load 1,.compare 1,.startSessionFor 1]

theorem overlapping_requests_fail : ∃ s, run step initial overlapping = some s ∧ s.requester 1 = .waiting ∧
    s.nDigest = 0 ∧ s.nDigestReq = 1 ∧ step s (.assertEnough 1) = none := by decide +kernel

end Assise.ReplicationCounts
