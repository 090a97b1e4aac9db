import Assise.Leases
import Assise.LogRingSafety

-- What the manager of a lease knows of the previous holder's log when it grants the lease: the holder reports where its
-- log was, and KernFS waits until its digests have passed that place.
namespace Assise.LeaseHandover
open LogRing Lib.Runs Lib.Segments Option Function List

structure Place where
  version : Nat
  block : Nat
deriving DecidableEq, Repr

def Place.UpTo (place last : Place) : Prop :=
  place.version < last.version ∨ place.version = last.version ∧ place.block ≤ last.block

structure Peer where
  startVersion : Nat
  startDigest : Nat
deriving DecidableEq, Repr

-- `hdrBlkno` is the header of the last commit, `marked` where the log was when the lease was last marked revocable.
-- `pending` lists the committed transactions that no digest has visited.
structure Process where
  log : LogRing.State
  hdrBlkno : Nat
  marked : Place
  peer : Peer
  pending : List Place

-- `reported` is the last surrender. `ending` lists the logs with a digest that has still to clear the checkpoints,
-- `required` is the checkpoint a grant waits for.
structure State where
  procs : Nat → Process
  lease : Leases.Lease
  mutex : Leases.Mutex
  reported : Option (Nat × Place)
  ending : List Nat
  required : Place

def initProcess (logSbBlk : Nat) (log : LogArea) : Process where
  log := LogRing.initLog logSbBlk log
  hdrBlkno := 0
  marked := ⟨0,0⟩
  peer := ⟨0,logSbBlk + 1⟩
  pending := []

def initial (logSbBlk : Nat → Nat) (log : Nat → LogArea) : State where
  procs := fun p => initProcess (logSbBlk p) (log p)
  lease := Leases.lcacheAllocAdd
  mutex := .free
  reported := none
  ending := []
  required := ⟨0,0⟩

-- A digest that ends before the place where the last one ended went around the log.
def updatePeerDigestState (peer : Peer) (startDigest : Nat) (rotated : Bool) : Peer :=
  ⟨if rotated || decide (startDigest < peer.startDigest) then (peer.startVersion + 1) % 2 ^ 32 else peer.startVersion,startDigest⟩

-- A step of the log of a process. KernFS ends a digest with the update of its digest state and
-- stops at a digest of another number of headers than requested.
def logStep (threshold : Nat) (proc : Process) (action : LogRing.Action) : Option Process :=
  (LogRing.step threshold proc.log action).bind fun next =>
    match action with
    | .commit _ =>
      match proc.log.phase with
      | .allocated hdr _ => some { proc with
          log := next,hdrBlkno := hdr,pending := proc.pending ++ [⟨proc.log.availVersion,hdr⟩] }
      | _ => none
    | .kernfs _ =>
      match proc.log.digest,next.digest with
      | .sent request,.done answer =>
        if request.nHdrs = answer.nDigested then some { proc with
          log := next
          peer := updatePeerDigestState proc.peer answer.nextHdr answer.rotated
          pending := proc.pending.filter fun place => decide (place.block ∉ answer.visited) }
        else none
      | _,_ => none
    | _ => some { proc with log := next }

def waits (peer : Peer) (version blockNr : Nat) : Bool :=
  decide (peer.startVersion < version ∨ peer.startVersion = version ∧ peer.startDigest ≤ blockNr)

-- What the digest of a log leaves of the checkpoint of one record. The version of the log is passed as an int.
def clearCheckpoint (reqId : Nat) (version : Int) (logBlock : Nat) (item : Leases.Lease) : Leases.Lease :=
  if item.hid = reqId ∧ (version = item.lversion ∧ item.lblock ≤ logBlock ∨ (item.lversion : Int) < version) then
    if item.lversion ≠ 0 ∨ item.lblock ≠ 0 then { item with lversion := 0,lblock := 0 } else item
  else item

def clearLeaseCheckpoints (reqId : Nat) (version : Int) (logBlock : Nat) (table : List Leases.Lease) : List Leases.Lease :=
  table.map (clearCheckpoint reqId version logBlock)

-- `surrender` is a surrender that reaches the manager: at once in a build without LAZY_SURRENDER, after a flush in
-- the other one.
inductive Action where
  | log (p : Nat) (action : LogRing.Action)
  | clear (p : Nat)
  | mark (p : Nat)
  | surrender (p : Nat)
  | request (q : Nat)
  | released
  | checkpoint

def step (threshold : Nat) (s : State) : Action → Option State
  | .log p action => (logStep threshold (s.procs p) action).map fun proc => { s with
      procs := update s.procs p proc
      ending := match action with
        | .kernfs _ => p :: s.ending
        | _ => s.ending }
  | .clear p =>
    if p ∈ s.ending then
      let peer := (s.procs p).peer
      some { s with lease := clearCheckpoint p ((peer.startVersion : Int).bmod (2 ^ 32)) peer.startDigest s.lease,ending := s.ending.erase p }
    else none
  | .mark p =>
    let proc := s.procs p
    some { s with procs := update s.procs p { proc with marked := ⟨proc.log.availVersion,proc.hdrBlkno⟩ } }
  | .surrender p =>
    if s.lease.hid = p then
      let marked := (s.procs p).marked
      (s.lease.surrender (marked.version % 2 ^ 16) marked.block).map fun ls => { s with lease := ls,reported := some (p,marked) }
    else none
  | .request q =>
    if s.mutex = .free then
      if s.lease.holders = 0 then some { s with lease := s.lease.grant q } else some { s with mutex := .flushed q }
    else none
  | .released =>
    match s.mutex with
    | .flushed q =>
      if s.lease.holders = 0 then some { s with mutex := .waiting q,required := ⟨s.lease.lversion,s.lease.lblock⟩ } else none
    | _ => none
  | .checkpoint =>
    match s.mutex with
    | .waiting q =>
      if waits (s.procs s.lease.hid).peer s.required.version s.required.block then none
      else some { s with lease := s.lease.grant q,mutex := .free }
    | _ => none

-- The logs stay clear of the faults of the ring; no digest of the last holder has stopped at the checkpoint when it
-- clears it; the version fits 16 bits when a lease is marked; and the request of another process comes before the
-- surrender.
def Reported (threshold : Nat) (s : State) : Action → Prop
  | .log p action => RingOk threshold (s.procs p).log action
  | .clear p => s.lease.hid = p → (s.procs p).peer ≠ ⟨s.lease.lversion,s.lease.lblock⟩
  | .mark p => (s.procs p).log.availVersion < 2 ^ 16
  | .request q => s.lease.holders = 0 → s.reported = none ∨ s.lease.hid = q
  | .surrender _ | .released | .checkpoint => True

instance (threshold : Nat) (s : State) (action : Action) : Decidable (Reported threshold s action) := by
  cases action <;> (simp only [Reported]; infer_instance)

def versionOf (log : LogRing.State) (block : Nat) : Nat :=
  if log.availVersion ≠ log.startVersion ∧ log.startBlk ≤ block then log.startVersion else log.availVersion

def remaining (log : LogRing.State) : List Tx :=
  match log.digest with
  | .done answer => log.undigested.filter fun tx => decide (tx.first ∉ answer.visited)
  | _ => log.undigested

def head (log : LogRing.State) : Place :=
  match log.digest with
  | .done answer => ⟨log.startVersion + answer.rotated.toNat,answer.nextHdr⟩
  | _ => ⟨log.startVersion,log.startBlk⟩

-- KernFS may miss that the log went around, but never sees it ahead of its head.
structure ProcInv (proc : Process) : Prop where
  ring : LogRing.Inv proc.log
  blocks : proc.pending.map Place.block = (remaining proc.log).map Segment.first
  dated : ∀ place ∈ proc.pending, place.version = versionOf proc.log place.block
  behind : proc.peer.startVersion < (head proc.log).version ∨
    proc.peer.startVersion = (head proc.log).version ∧ proc.peer.startDigest = (head proc.log).block

variable {log next : LogRing.State} {proc : Process} {nrBlocks threshold last n tail : Nat} {rotated : Bool}
    {answer : DigestAnswer} {s : State} {txs : List Tx} {peer : Peer}

theorem remaining_subset {tx : Tx} (listed : tx ∈ remaining log) : tx ∈ log.undigested := by
  unfold remaining at listed
  split at listed
  · exact mem_of_mem_filter listed
  · exact listed

variable {action : LogRing.Action} {place : Place}

theorem ProcInv.tx (inv : ProcInv proc) (listed : place ∈ proc.pending) :
    ∃ tx ∈ remaining proc.log, tx.first = place.block :=
  mem_map.mp (inv.blocks ▸ mem_map_of_mem listed)

theorem versionOf_congr (avail : next.availVersion = log.availVersion)
    (start : next.startVersion = log.startVersion) (block : next.startBlk = log.startBlk) (b : Nat) :
    versionOf next b = versionOf log b := by
  simp only [versionOf,avail,start,block]

section
variable (inv : ProcInv proc)
include inv

theorem ProcInv.keep (ring : LogRing.Inv next)
    (undigested : next.undigested = proc.log.undigested) (digest : next.digest = proc.log.digest)
    (avail : next.availVersion = proc.log.availVersion) (start : next.startVersion = proc.log.startVersion)
    (block : next.startBlk = proc.log.startBlk) : ProcInv { proc with log := next } where
  ring := ring
  blocks := by
    have same : remaining next = remaining proc.log := by simp only [remaining,undigested,digest]
    exact inv.blocks.trans (congrArg _ same.symm)
  dated := fun place listed => (inv.dated place listed).trans (versionOf_congr avail start block _).symm
  behind := by
    have same : head next = head proc.log := by simp only [head,digest,start,block]
    dsimp only
    rw [same]
    exact inv.behind

theorem ProcInv.request (ok : RequestOk proc.log) :
    ProcInv { proc with log := makeDigestRequestAsync proc.log } := by
  have ring := makeDigestRequestAsync_inv inv.ring ok
  unfold makeDigestRequestAsync at ring ⊢
  split
  · rename_i sends
    rw [if_pos sends] at ring
    have all : remaining proc.log = proc.log.undigested := by simp only [remaining,sends.1]
    have blocks := inv.blocks
    rw [all] at blocks
    have behind := inv.behind
    simp only [head,sends.1] at behind
    unfold makeDigestRequestSync at ring ⊢
    dsimp only at ring ⊢
    unfold moveHead at ring ⊢
    split
    · rename_i moves
      rw [if_pos moves] at ring
      have bound := inv.ring.version
      have versions : proc.log.availVersion = proc.log.startVersion + 1 := by
        rcases inv.ring.lap with plain | ⟨_,_,_,wrapped⟩ | stuck
        · have early := ok plain.versions
          omega
        · exact wrapped.versions
        · exact stuck.versions
      have early := passed_young inv.ring.lap (by omega) moves.2
      have wide : (proc.log.startVersion + 1) % 2 ^ 32 = proc.log.startVersion + 1 := Nat.mod_eq_of_lt (versions ▸ bound)
      refine ⟨ring,blocks,?_,.inl ?_⟩
      · intro place listed
        have old := inv.dated place listed
        obtain ⟨tx,here,first⟩ := inv.tx listed
        have early := early tx (remaining_subset here)
        rw [versionOf,if_neg fun both => by omega] at old
        rw [old,versionOf,if_neg fun both => both.1 (versions.trans wide.symm)]
      · simp only [head,wide]
        omega
    · rename_i stays
      rw [if_neg stays] at ring
      exact ⟨ring,blocks,inv.dated,behind⟩
  · exact inv

theorem ProcInv.reserve (phase : proc.log.phase = .entered nrBlocks)
    (ok : ReserveOk proc.log nrBlocks) : ProcInv { proc with log := reserveBlocks nrBlocks proc.log } := by
  have ring := reserveBlocks_inv inv.ring phase ok
  by_cases wraps : proc.log.size < proc.log.nextAvailHeader + nrBlocks
  · -- the transactions so far belong to the lap that ends here
    obtain ⟨_,versions,bound,_⟩ : nrBlocks < gLogSize ∧ proc.log.availVersion = proc.log.startVersion ∧
        proc.log.availVersion + 1 < 2 ^ 32 ∧ proc.log.begin + nrBlocks ≠ proc.log.nextAvailHeader := by
      rw [ReserveOk,if_pos wraps] at ok
      exact ok
    have early : ∀ tx ∈ proc.log.undigested, proc.log.startBlk ≤ tx.first := by
      intro tx listed
      rcases inv.ring.lap with plain | ⟨_,_,_,wrapped⟩ | stuck
      · exact (chain_bounds plain.chain tx (mem_append_left _ listed)).1
      · have apart := wrapped.versions
        omega
      · have apart := stuck.versions
        omega
    refine ⟨ring,?_,?_,?_⟩
    · rw [inv.blocks]
      unfold reserveBlocks wrapTail
      rw [if_pos wraps]
      rfl
    · intro place listed
      obtain ⟨tx,here,first⟩ := inv.tx listed
      have old := inv.dated place listed
      have start := early tx (remaining_subset here)
      rw [versionOf,if_neg fun both => both.1 versions] at old
      rw [old]
      unfold reserveBlocks wrapTail versionOf
      dsimp only
      rw [if_pos wraps]
      dsimp only
      rw [Nat.mod_eq_of_lt bound,if_pos ⟨by omega,by omega⟩,versions]
    · unfold reserveBlocks wrapTail
      rw [if_pos wraps]
      exact inv.behind
  · refine inv.keep ring ?_ ?_ ?_ ?_ ?_ <;>
      (unfold reserveBlocks wrapTail; rw [if_neg wraps])

theorem ProcInv.commit {hdr : Nat} (contents : LogArea)
    (phase : proc.log.phase = .allocated hdr nrBlocks) :
    ProcInv { proc with
      log := commitLog contents hdr nrBlocks proc.log,hdrBlkno := hdr
      pending := proc.pending ++ [⟨proc.log.availVersion,hdr⟩] } := by
  obtain ⟨_,positive,_,apart⟩ := allocated_safe inv.ring.lap phase
  have blocks := inv.blocks
  refine ⟨commitLog_inv contents inv.ring phase,?_,?_,inv.behind⟩
  · rw [map_append,blocks]
    have added : remaining (commitLog contents hdr nrBlocks proc.log) = remaining proc.log ++ [⟨hdr,nrBlocks⟩] := by
      simp only [remaining,commitLog]
      cases pending : proc.log.digest with
      | idle | sent _ => rfl
      | done answer =>
        have covered := inv.ring.pending
        rw [Pending,pending] at covered
        obtain ⟨covered,rest,split,_,_,visited,_⟩ := covered
        have new : hdr ∉ answer.visited := by
          rw [visited]
          intro seen
          obtain ⟨tx,here,same⟩ := mem_map.mp seen
          have listed : tx ∈ proc.log.undigested := split ▸ mem_append_left _ here
          have away := apart tx listed
          have count := (lap_bounds inv.ring.lap tx listed).2.1
          simp only [Segment.Apart,Segment.stop] at away
          omega
        simp only [filter_append,filter_singleton,new,not_false_eq_true,decide_true,cond_true]
    rw [added,map_append]
    rfl
  · intro place listed
    rcases mem_append.mp listed with old | new
    · exact inv.dated place old
    · rw [mem_singleton.mp new]
      rw [versionOf,if_neg]
      rfl
      rintro ⟨ahead,start⟩
      rcases inv.ring.lap with plain | ⟨_,_,top,wrapped⟩ | stuck
      · exact ahead plain.versions
      · have held := wrapped.held
        rw [phase] at held
        have room := wrapped.room (by rw [phase]; rfl)
        obtain ⟨first,_,stop⟩ := held
        have stop : hdr + nrBlocks = proc.log.nextAvailHeader := stop
        have start : proc.log.startBlk ≤ hdr := start
        omega
      · have retrying := stuck.retrying
        rw [phase] at retrying
        cases retrying

theorem ProcInv.digested {request : DigestRequest} {area : LogArea} (sent : proc.log.digest = .sent request)
    (ring : LogRing.Inv { proc.log with log := area,digest := .done answer }) :
    ∃ turned : Bool, updatePeerDigestState proc.peer answer.nextHdr answer.rotated =
        ⟨proc.peer.startVersion + turned.toNat,answer.nextHdr⟩ ∧
      proc.peer.startVersion + turned.toNat ≤ proc.log.startVersion + answer.rotated.toNat ∧
      (turned = false → proc.peer.startDigest ≤ answer.nextHdr) := by
  have behind := inv.behind
  simp only [head,sent] at behind
  have version := inv.ring.version
  have order := startVersion_le inv.ring.lap
  obtain ⟨covered,rest,_,_,_,_,coverage⟩ := ring.pending
  rcases coverage_forward coverage with ⟨plain,forward⟩ | ⟨rotated,versions⟩
  · have forward : proc.log.startBlk ≤ answer.nextHdr := forward
    simp only [updatePeerDigestState,plain,Bool.false_or,decide_eq_true_eq,Bool.toNat_false,add_zero]
    by_cases back : answer.nextHdr < proc.peer.startDigest
    · refine ⟨true,?_,?_,fun other => by cases other⟩
      · rw [if_pos back,Nat.mod_eq_of_lt (by omega)]
        rfl
      · simp only [Bool.toNat_true]
        omega
    · exact ⟨false,by rw [if_neg back]; rfl,by simp only [Bool.toNat_false]; omega,fun _ => not_lt.mp back⟩
  · have versions : proc.log.availVersion = proc.log.startVersion + 1 := versions
    refine ⟨true,?_,?_,fun other => by cases other⟩
    · simp only [updatePeerDigestState,rotated,Bool.true_or,if_true]
      rw [Nat.mod_eq_of_lt (by omega)]
      rfl
    · simp only [rotated,Bool.toNat_true]
      omega

theorem ProcInv.kernfs {request : DigestRequest} {area : LogArea}
    (sent : proc.log.digest = .sent request) (ring : LogRing.Inv { proc.log with log := area,digest := .done answer }) :
    ProcInv { proc with
      log := { proc.log with log := area,digest := .done answer }
      peer := updatePeerDigestState proc.peer answer.nextHdr answer.rotated
      pending := proc.pending.filter fun place => decide (place.block ∉ answer.visited) } := by
  have all : remaining proc.log = proc.log.undigested := by simp only [remaining,sent]
  have blocks := inv.blocks
  rw [all] at blocks
  obtain ⟨turned,moved,low,_⟩ := inv.digested sent ring
  refine ⟨ring,?_,fun place listed => inv.dated place (mem_of_mem_filter listed),?_⟩
  · have filtered := congrArg (List.filter fun block => decide (block ∉ answer.visited)) blocks
    rw [List.filter_map,List.filter_map] at filtered
    exact filtered
  · rw [moved]
    exact (Nat.lt_or_eq_of_le low).imp_right fun same => ⟨same,rfl⟩

end

theorem dated_respond (inv : LogRing.Inv log) (done : log.digest = .done answer)
    (handled : handleDigestResponse answer log = some next) {tx : Tx} (left : tx ∈ remaining log) :
    versionOf next tx.first = versionOf log tx.first := by
  have frame := handleDigestResponse_frame handled
  have busy : log.digest ≠ .idle := by rw [done]; intro other; cases other
  have bound := inv.version
  have order := startVersion_le inv.lap
  have pending := inv.pending
  rw [Pending,done] at pending
  obtain ⟨covered,rest,split_,_,_,visited,coverage⟩ := pending
  simp only [remaining,done] at left
  rw [visited,undigested_kept inv.lap split_] at left
  rw [versionOf,versionOf,frame.head,frame.version,frame.lap]
  by_cases older : log.availVersion ≠ log.startVersion ∧ log.startBlk ≤ tx.first
  · obtain ⟨plain,above⟩ := left_above coverage inv.lap busy split_ (by omega) left older.2
    rw [plain,if_pos older]
    exact if_pos ⟨older.1,above⟩
  · rw [if_neg older]
    rcases coverage_forward coverage with ⟨plain,forward⟩ | ⟨rotated,versions⟩
    · rw [plain]
      exact if_neg fun both => older ⟨both.1,le_trans forward both.2⟩
    · rw [rotated,if_pos rfl,Nat.mod_eq_of_lt (by omega)]
      exact if_neg fun both => both.1 versions

theorem ProcInv.respond (inv : ProcInv proc) (done : proc.log.digest = .done answer) (handled : handleDigestResponse answer proc.log = some next) :
    ProcInv { proc with log := next } ∧ head next = head proc.log := by
  have frame := handleDigestResponse_frame handled
  have pending := inv.ring.pending
  have bound := inv.ring.version
  rw [Pending,done] at pending
  obtain ⟨_,_,_,_,_,_,coverage⟩ := pending
  have same : head next = head proc.log := by
    simp only [head,frame.idle,done,frame.head,frame.version,Place.mk.injEq,and_true]
    rcases coverage_forward coverage with ⟨plain,_⟩ | ⟨rotated,versions⟩
    · rw [plain]
      rfl
    · rw [rotated,if_pos rfl,Nat.mod_eq_of_lt (by omega)]
      rfl
  refine ⟨⟨respond_inv inv.ring done handled,?_,?_,?_⟩,same⟩
  · rw [inv.blocks]
    simp only [remaining,frame.idle,done,frame.left]
  · intro place listed
    obtain ⟨tx,left,first⟩ := inv.tx listed
    rw [inv.dated place listed,← first,dated_respond inv.ring done handled left]
  · dsimp only
    rw [same]
    exact inv.behind

theorem ProcInv.ahead (inv : ProcInv proc) (listed : place ∈ proc.pending) :
    (head proc.log).version < place.version ∨
      (head proc.log).version = place.version ∧ (head proc.log).block ≤ place.block := by
  have plain : ∀ proc : Process, ProcInv proc → (∀ answer, proc.log.digest ≠ .done answer) → place ∈ proc.pending →
      proc.log.startVersion < place.version ∨ proc.log.startVersion = place.version ∧ proc.log.startBlk ≤ place.block := by
    intro proc inv open_ listed
    obtain ⟨tx,left,first⟩ := inv.tx listed
    have date := inv.dated place listed
    have here := remaining_subset left
    rcases inv.ring.lap with lap | ⟨_,_,_,wrapped⟩ | stuck
    · have start := (chain_bounds lap.chain tx (mem_append_left _ here)).1
      rw [versionOf,if_neg fun both => both.1 lap.versions,lap.versions] at date
      omega
    · have versions := wrapped.versions
      unfold versionOf at date
      split at date <;> omega
    · rw [stuck.empty] at here
      cases here
  cases state : proc.log.digest with
  | idle | sent _ =>
    have facts := plain proc inv (by rw [state]; intro _ other; cases other) listed
    simp only [head,state]
    exact facts
  | done answer =>
    have pending := inv.ring.pending
    rw [Pending,state] at pending
    obtain ⟨_,_,_,digested,count,_,_⟩ := pending
    obtain ⟨next,handled⟩ : ∃ next, handleDigestResponse answer proc.log = some next := by
      rw [handleDigestResponse,if_pos (count.trans digested.symm)]
      exact ⟨_,rfl⟩
    obtain ⟨later,same⟩ := inv.respond state handled
    have idle := (handleDigestResponse_frame handled).idle
    have facts := plain _ later (by dsimp only; rw [idle]; intro _ other; cases other) listed
    rw [← same]
    simp only [head,idle]
    exact facts

theorem init_procInv (logSbBlk : Nat) (log : LogArea) : ProcInv (initProcess logSbBlk log) where
  ring := initLog_inv logSbBlk log
  blocks := rfl
  dated := fun _ listed => by cases listed
  behind := .inr ⟨rfl,rfl⟩

theorem logStep_inv {next : Process} (inv : ProcInv proc)
    (ok : RingOk threshold proc.log action) (done : logStep threshold proc action = some next) : ProcInv next := by
  obtain ⟨log,stepped,rest⟩ := bind_eq_some_iff.mp done
  have ring := LogRing.step_inv threshold proc.log action log inv.ring ok stepped
  cases step_sound stepped with
  | request =>
    cases rest
    exact inv.request ok
  | enterFull idle above =>
    cases rest
    exact (inv.request (ok above)).keep ring rfl rfl rfl rfl rfl
  | enter idle | check phase | waited phase | retry phase | recheck phase _ =>
    cases rest
    exact inv.keep ring rfl rfl rfl rfl rfl
  | reserve phase =>
    cases rest
    rw [RingOk,phase] at ok
    exact inv.reserve phase ok
  | checkLow phase low =>
    cases rest
    have ahead := (of_decide_eq_true low).1
    exact (inv.request fun same => by omega).keep ring rfl rfl rfl rfl rfl
  | commit phase =>
    simp only [phase] at rest
    cases rest
    exact inv.commit _ phase
  | kernfs sent walk =>
    simp only [sent] at rest
    obtain ⟨_,rest⟩ := ite_none_right_eq_some.mp rest
    cases rest
    exact inv.kernfs sent ring
  | respond ended handled =>
    cases rest
    exact (inv.respond ended handled).1

theorem logStep_marked {next : Process}
    (done : logStep threshold proc action = some next) : next.marked = proc.marked := by
  obtain ⟨log,_,rest⟩ := bind_eq_some_iff.mp done
  cases action with
  | commit contents =>
    dsimp only at rest
    split at rest
    · cases rest; rfl
    · cases rest
  | kernfs contents =>
    dsimp only at rest
    split at rest
    · obtain ⟨_,rest⟩ := ite_none_right_eq_some.mp rest
      cases rest
      rfl
    · cases rest
  | request | enter _ | reserve | check | waited | recheck | respond => cases rest; rfl

theorem logStep_passed {next : Process} (inv : ProcInv proc) (ok : RingOk threshold proc.log action)
    (done : logStep threshold proc action = some next) {version block : Nat} (ended : waits proc.peer version block = false) :
    waits next.peer version block = false := by
  obtain ⟨log,stepped,rest⟩ := bind_eq_some_iff.mp done
  have ring := LogRing.step_inv threshold proc.log action log inv.ring ok stepped
  cases step_sound stepped with
  | kernfs sent walk =>
    simp only [sent] at rest
    obtain ⟨_,rest⟩ := ite_none_right_eq_some.mp rest
    cases rest
    obtain ⟨turned,moved,_,forward⟩ := inv.digested sent ring
    have past := of_decide_eq_false ended
    rw [moved]
    refine decide_eq_false ?_
    cases turned with
    | true =>
      simp only [Bool.toNat_true]
      omega
    | false =>
      have forward := forward rfl
      simp only [Bool.toNat_false]
      omega
  | commit phase =>
    simp only [phase] at rest
    cases rest
    exact ended
  | request | enterFull _ _ | enter _ | reserve _ | checkLow _ _ | check _ | waited _ | retry _ | recheck _ _ | respond _ _ =>
    cases rest
    exact ended

def Reports (s : State) (checkpoint : Place) : Prop :=
  ∃ last, s.reported = some (s.lease.hid,last) ∧
    (checkpoint = last ∨ waits (s.procs s.lease.hid).peer last.version last.block = false)

structure Inv (s : State) : Prop where
  procs : ∀ p, ProcInv (s.procs p)
  narrow : ∀ p, (s.procs p).marked.version < 2 ^ 16
  idle : s.lease.holders = 0 → (s.reported = none ∧ s.mutex = .free) ∨ Reports s ⟨s.lease.lversion,s.lease.lblock⟩
  released : ∀ q, s.mutex = .waiting q → s.lease.holders = 0 ∧ Reports s s.required

theorem initial_inv (logSbBlk : Nat → Nat) (log : Nat → LogArea) : Inv (initial logSbBlk log) where
  procs := fun p => init_procInv (logSbBlk p) (log p)
  narrow := fun _ => Nat.two_pow_pos 16
  idle := fun _ => .inl ⟨rfl,rfl⟩
  released := fun _ busy => by cases busy

theorem grant_holders {ls : Leases.Lease} (none_ : ls.holders = 0) (q : Nat) : (ls.grant q).holders = 1 := by
  simp only [Leases.Lease.grant,none_,zero_add,Nat.reducePow,Nat.reduceMod]

theorem Inv.setProc (inv : Inv s) {p : Nat} (kept : ProcInv proc) (narrow : proc.marked.version < 2 ^ 16)
    (passed : ∀ version block, waits (s.procs p).peer version block = false → waits proc.peer version block = false)
    (ending : List Nat) : Inv { s with procs := update s.procs p proc,ending := ending } := by
  have reports : ∀ checkpoint, Reports s checkpoint →
      Reports { s with procs := update s.procs p proc,ending := ending } checkpoint := by
    rintro checkpoint ⟨last,from_,here⟩
    refine ⟨last,from_,here.imp_right fun ended => ?_⟩
    by_cases own : s.lease.hid = p
    · rw [own] at ended
      simpa only [own,update_self] using passed _ _ ended
    · simpa only [update_of_ne own] using ended
  refine ⟨fun q => ?_,fun q => ?_,fun none_ => (inv.idle none_).imp_right (reports _),
    fun q busy => (inv.released q busy).imp_right (reports _)⟩
  · by_cases own : q = p
    · subst own
      simpa only [update_self] using kept
    · simpa only [update_of_ne own] using inv.procs q
  · by_cases own : q = p
    · subst own
      simpa only [update_self] using narrow
    · simpa only [update_of_ne own] using inv.narrow q

theorem ProcInv.peerVersion (inv : ProcInv proc) : proc.peer.startVersion < 2 ^ 32 := by
  have bound := inv.ring.version
  have order := startVersion_le inv.ring.lap
  have behind := inv.behind
  cases state : proc.log.digest with
  | idle | sent _ =>
    simp only [head,state] at behind
    omega
  | done answer =>
    have pending := inv.ring.pending
    rw [Pending,state] at pending
    obtain ⟨_,_,_,_,_,_,coverage⟩ := pending
    simp only [head,state] at behind
    rcases coverage_forward coverage with ⟨plain,_⟩ | ⟨rotated,versions⟩
    · simp only [plain,Bool.toNat_false] at behind
      omega
    · simp only [rotated,Bool.toNat_true] at behind
      omega

theorem bmod_version {version : Nat} (bound : version < 2 ^ 32) :
    (version : Int).bmod (2 ^ 32) = if version < 2 ^ 31 then (version : Int) else version - 2 ^ 32 := by
  rw [Int.bmod_def]
  split <;> split <;> omega

theorem clearCheckpoint_passed {item : Leases.Lease} {p : Nat} (bound : peer.startVersion < 2 ^ 32)
    (apart : item.hid = p → peer ≠ ⟨item.lversion,item.lblock⟩) :
    clearCheckpoint p ((peer.startVersion : Int).bmod (2 ^ 32)) peer.startDigest item = item ∨
      item.hid = p ∧ waits peer item.lversion item.lblock = false := by
  unfold clearCheckpoint
  split
  · rename_i ends
    right
    refine ⟨ends.1,decide_eq_false ?_⟩
    have apart : ¬(peer.startVersion = item.lversion ∧ peer.startDigest = item.lblock) :=
      fun both => apart ends.1 (by rw [← both.1,← both.2])
    have ends := ends.2
    rw [bmod_version bound] at ends
    split at ends <;> omega
  · exact .inl rfl

theorem clearCheckpoint_frame (p : Nat) (version : Int) (block : Nat) (item : Leases.Lease) :
    (clearCheckpoint p version block item).hid = item.hid ∧ (clearCheckpoint p version block item).holders = item.holders := by
  unfold clearCheckpoint
  split
  · split <;> exact ⟨rfl,rfl⟩
  · exact ⟨rfl,rfl⟩

theorem Inv.clear (inv : Inv s) {p : Nat} (apart : s.lease.hid = p → (s.procs p).peer ≠ ⟨s.lease.lversion,s.lease.lblock⟩)
    (ending : List Nat) : Inv { s with
      lease := clearCheckpoint p (((s.procs p).peer.startVersion : Int).bmod (2 ^ 32)) (s.procs p).peer.startDigest s.lease
      ending := ending } := by
  obtain ⟨hid,holders⟩ := clearCheckpoint_frame p (((s.procs p).peer.startVersion : Int).bmod (2 ^ 32)) (s.procs p).peer.startDigest s.lease
  refine ⟨inv.procs,inv.narrow,fun none_ => ?_,fun q busy => ?_⟩
  · refine (inv.idle (holders ▸ none_)).imp_right fun ⟨last,from_,here⟩ => ⟨last,by dsimp only; rw [hid]; exact from_,?_⟩
    dsimp only
    rw [hid]
    rcases clearCheckpoint_passed (inv.procs p).peerVersion apart with same | ⟨own,ended⟩
    · rw [same]
      exact here
    · right
      rcases here with rfl | ended'
      · rw [own]
        exact ended
      · exact ended'
  · obtain ⟨none_,last,from_,here⟩ := inv.released q busy
    refine ⟨holders.trans none_,last,?_,?_⟩
    · dsimp only
      rw [hid]
      exact from_
    · dsimp only
      rw [hid]
      exact here

theorem step_inv {s' : State} {action : Action} (inv : Inv s) (ok : Reported threshold s action)
    (done : step threshold s action = some s') : Inv s' := by
  cases action with
  | log p action =>
    obtain ⟨proc,stepped,rfl⟩ := map_eq_some_iff.mp done
    exact inv.setProc (logStep_inv (inv.procs p) ok stepped) (logStep_marked stepped ▸ inv.narrow p)
      (fun _ _ => logStep_passed (inv.procs p) ok stepped) _
  | clear p =>
    obtain ⟨_,branch⟩ := ite_none_right_eq_some.mp done
    cases branch
    exact inv.clear ok _
  | mark p =>
    cases done
    obtain ⟨ring,blocks,dated,behind⟩ := inv.procs p
    have kept : ProcInv { s.procs p with marked := ⟨(s.procs p).log.availVersion,(s.procs p).hdrBlkno⟩ } := ⟨ring,blocks,dated,behind⟩
    exact inv.setProc kept ok (fun _ _ ended => ended) _
  | surrender p =>
    obtain ⟨holder,branch⟩ := ite_none_right_eq_some.mp done
    obtain ⟨ls,surrendered,rfl⟩ := map_eq_some_iff.mp branch
    obtain ⟨some_,same⟩ := ite_none_right_eq_some.mp surrendered
    cases same
    have narrow := inv.narrow p
    refine ⟨inv.procs,inv.narrow,fun _ => .inr ⟨(s.procs p).marked,by rw [← holder],.inl ?_⟩,fun q busy => ?_⟩
    · dsimp only
      rw [Nat.mod_mod,Nat.mod_eq_of_lt narrow]
    · have none_ := (inv.released q busy).1
      omega
  | request q =>
    obtain ⟨open_,branch⟩ := ite_none_right_eq_some.mp done
    split at branch
    · rename_i none_
      cases branch
      refine ⟨inv.procs,inv.narrow,fun held => ?_,fun _ busy => ?_⟩
      · rw [grant_holders none_] at held
        cases held
      · dsimp only at busy
        rw [open_] at busy
        cases busy
    · rename_i some_
      cases branch
      exact ⟨inv.procs,inv.narrow,fun none_ => absurd none_ some_,fun _ busy => by cases busy⟩
  | released =>
    simp only [step] at done
    split at done
    · rename_i q busy
      obtain ⟨none_,branch⟩ := ite_none_right_eq_some.mp done
      cases branch
      have reports : Reports s ⟨s.lease.lversion,s.lease.lblock⟩ := (inv.idle none_).resolve_left fun both => by
        rw [busy] at both
        cases both.2
      exact ⟨inv.procs,inv.narrow,fun _ => .inr reports,fun _ _ => ⟨none_,reports⟩⟩
    · cases done
  | checkpoint =>
    simp only [step] at done
    split at done
    · rename_i q busy
      obtain ⟨_,branch⟩ := ite_none_left_eq_some.mp done
      cases branch
      refine ⟨inv.procs,inv.narrow,fun held => ?_,fun _ busy => by cases busy⟩
      rw [grant_holders (inv.released q busy).1] at held
      cases held
    · cases done

theorem ProcInv.passed (inv : ProcInv proc) {last : Place} (ended : waits proc.peer last.version last.block = false)
    (listed : place ∈ proc.pending) : ¬place.UpTo last := by
  have behind := inv.behind
  have ahead := inv.ahead listed
  have past := of_decide_eq_false ended
  unfold Place.UpTo
  omega

theorem granted_after_digest (threshold : Nat) (logSbBlk : Nat → Nat) (log : Nat → LogArea) (actions : List Action) (s s' : State)
    (action : Action) (p : Nat) (last : Place)
    (ok : Guarded (step threshold) (Reported threshold) (initial logSbBlk log) (actions ++ [action]))
    (ran : run (step threshold) (initial logSbBlk log) actions = some s) (done : step threshold s action = some s')
    (reported : s.reported = some (p,last)) (passed : s'.lease.hid ≠ s.lease.hid) :
    p = s.lease.hid ∧ ∀ place ∈ (s.procs p).pending, ¬place.UpTo last := by
  obtain ⟨early,now⟩ := guarded_append _ _ _ _ _ _ ok ran
  have inv := invariant_run (step threshold) (Reported threshold) Inv (fun _ _ _ inv ok done => step_inv inv ok done) _ s actions
    (initial_inv logSbBlk log) early ran
  cases action with
  | log q action =>
    obtain ⟨_,_,rfl⟩ := map_eq_some_iff.mp done
    exact absurd rfl passed
  | clear q =>
    obtain ⟨_,branch⟩ := ite_none_right_eq_some.mp done
    cases branch
    exact absurd (clearCheckpoint_frame ..).1 passed
  | mark q =>
    cases done
    exact absurd rfl passed
  | surrender q =>
    obtain ⟨_,branch⟩ := ite_none_right_eq_some.mp done
    obtain ⟨ls,surrendered,rfl⟩ := map_eq_some_iff.mp branch
    obtain ⟨_,same⟩ := ite_none_right_eq_some.mp surrendered
    cases same
    exact absurd rfl passed
  | request q =>
    obtain ⟨_,branch⟩ := ite_none_right_eq_some.mp done
    split at branch
    · rename_i none_
      cases branch
      rcases now.1 none_ with other | same
      · rw [reported] at other
        cases other
      · exact absurd same.symm passed
    · cases branch
      exact absurd rfl passed
  | released =>
    simp only [step] at done
    split at done
    · obtain ⟨_,branch⟩ := ite_none_right_eq_some.mp done
      cases branch
      exact absurd rfl passed
    · cases done
  | checkpoint =>
    simp only [step] at done
    split at done
    · rename_i q busy
      obtain ⟨ended,_⟩ := ite_none_left_eq_some.mp done
      obtain ⟨_,place,from_,here⟩ := inv.released q busy
      obtain ⟨rfl,rfl⟩ := Prod.mk.inj (Option.some.inj (reported.symm.trans from_))
      have ended : waits (s.procs s.lease.hid).peer last.version last.block = false := by
        rcases here with same | ended'
        · rw [same,Bool.not_eq_true] at ended
          exact ended
        · exact ended'
      exact ⟨rfl,fun place listed => (inv.procs _).passed ended listed⟩
    · cases done

def device : State := initial (fun p => 616960 + gLogSize * (p - 1)) fun _ => blankLog

def handOverRun : List Action :=
  [.request 1] ++ (commitBlocks 9).map (.log 1) ++ [.mark 1,.request 2,.surrender 1,.released] ++
    digestAll.map (.log 1) ++ (commitBlocks 4).map (.log 1)

theorem granted_after_digest_ahead : ∃ s s', run (step 30) device handOverRun = some s ∧ step 30 s .checkpoint = some s' ∧
    s'.lease.hid = 2 ∧ (s.procs 1).pending = [⟨0,616971⟩] ∧ ∀ place ∈ (s.procs 1).pending, ¬place.UpTo ⟨0,616961⟩ := by
  obtain ⟨s,s',ran,stepped,reported,old,pending,new⟩ : ∃ s s', run (step 30) device handOverRun = some s ∧
      step 30 s .checkpoint = some s' ∧ s.reported = some (1,⟨0,616961⟩) ∧ s.lease.hid = 1 ∧
      (s.procs 1).pending = [⟨0,616971⟩] ∧ s'.lease.hid = 2 := by decide +kernel
  refine ⟨s,s',ran,stepped,new,pending,(granted_after_digest 30 _ _ handOverRun s s' .checkpoint 1 ⟨0,616961⟩ (by decide +kernel) ran
    stepped reported ?_).2⟩
  rw [old,new]
  decide

-- A digest that leaves out the reported transaction stops at its header, and clears the checkpoint.
def shortDigestRun : List Action :=
  [.request 1] ++ (commitBlocks 9 ++ .request :: commitBlocks 4).map (.log 1) ++
    [.mark 1,.request 2,.surrender 1,.log 1 (.kernfs blankLog),.clear 1,.released]

theorem short_digest_grants_early : ∃ s s', run (step 30) device shortDigestRun = some s ∧ step 30 s .checkpoint = some s' ∧
    s.lease.hid = 1 ∧ s'.lease.hid = 2 ∧ s.reported = some (1,⟨0,616971⟩) ∧ (s.procs 1).pending = [⟨0,616971⟩] := by decide +kernel

end Assise.LeaseHandover
