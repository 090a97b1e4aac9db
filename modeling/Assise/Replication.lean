import Mathlib.Algebra.Order.Ring.Nat
import Mathlib.Algebra.Order.BigOperators.Group.List
import Assise.LogRingSafety

-- Replication of the log of one LibFS process to the next node: `create_rsync` turns the committed blocks that the peer
-- does not have yet into RDMA writes. Block numbers stand for addresses: `log` are the blocks at their own places, and
-- `home` is the place at which LibFS writes a block through the map table.
namespace Assise.Replication
open LogRing Lib.Runs Lib.Segments List
open Option hiding or_self

def maxRdmaSge : Nat := 32

structure SyncCtx where
  begin : Nat
  size : Nat
  logEnd : Nat
  log : LogArea
  home : Nat → Nat

structure Peer where
  localStart : Nat
  remoteStart : Nat
  remoteEnd : Nat
  startDigest : Nat
  startVersion : Nat
  availVersion : Nat
  digesting : Bool
  nUnsync : Nat
  nUnsyncBlk : Nat
  nUsed : Nat
  nUsedBlk : Nat
  nPending : Nat
deriving DecidableEq, Repr

-- One RDMA write: the pieces of the local log, one after the other, go to the remote log from block `addr` on.
structure RdmaEntry where
  addr : Nat
  length : Nat
  sges : List Segment
  rotated : Bool
deriving DecidableEq, Repr

structure Session where
  localStart : Nat
  remoteStart : Nat
  remoteEnd : Nat
  nUnsync : Nat
  nToSync : Nat
  nUnsyncBlk : Nat
  nToSyncBlk : Nat
  rotated : Bool
  intervals : List Segment
  intervalsStart : Nat
  rdmaEntries : List RdmaEntry
deriving DecidableEq, Repr

-- The used blocks of the peer's log. The two assertions on its pointers stop LibFS.
def nrUsedBlk (ctx : SyncCtx) (peer : Peer) : Option Nat :=
  if peer.availVersion = peer.startVersion then
    if peer.startDigest ≤ peer.remoteStart then some (peer.remoteStart - peer.startDigest) else none
  else if peer.remoteStart ≤ peer.startDigest then some (ctx.size - peer.startDigest + (peer.remoteStart - ctx.begin))
  else none

def snapshot (peer : Peer) : Session :=
  ⟨peer.localStart,peer.remoteStart,0,peer.nUnsync,peer.nUnsync,peer.nUnsyncBlk,0,false,[],peer.remoteStart,[]⟩

-- The outer `none` is the panic on a full peer log that is not being digested.
def startRsyncSession (ctx : SyncCtx) (peer : Peer) (nBlk : Nat) : Option (Option Session) := do
  let used ← nrUsedBlk ctx peer
  if ctx.size < used + peer.nUnsyncBlk + ctx.begin ∧ peer.digesting = false then none
  else if peer.nUnsyncBlk ≠ 0 ∧ nBlk ≤ peer.nUnsyncBlk then
    some (some (snapshot peer))
  else some none

-- The loop of `nr_blks_before_wrap` beyond the log headers. A header that is not committed fails the assertion; the
-- fuel bounds the headers read.
def countTxs (ctx : SyncCtx) (start size : Nat) : Nat → Nat → Nat → Option Nat
  | 0,_,_ => none
  | fuel + 1,currentBlk,nrBlks =>
    let hdr := ctx.log currentBlk
    if start + nrBlks + hdr.nrLogBlocks ≤ ctx.size ∧ nrBlks + hdr.nrLogBlocks ≤ size then
      if hdr.inuse ≠ lhCommitMagic then if nrBlks = size then some nrBlks else none
      else if nrBlks + hdr.nrLogBlocks = size then some (nrBlks + hdr.nrLogBlocks)
      else countTxs ctx start size fuel (nextLoghdrBlknr currentBlk hdr.nrLogBlocks ctx.begin ctx.logEnd)
        (nrBlks + hdr.nrLogBlocks)
    else some nrBlks

def nrBlksBeforeWrap (fuel : Nat) (ctx : SyncCtx) (start lag size : Nat) : Option Nat :=
  if ctx.size < start + size then countTxs ctx start size fuel ((start + lag) % 2 ^ 64) 0 else some size

def moveLogPtr (fuel : Nat) (ctx : SyncCtx) (logPtr lag size : Nat) : Option Nat :=
  if size = 0 then some logPtr
  else (nrBlksBeforeWrap fuel ctx logPtr lag size).map fun before =>
    if ctx.size < logPtr + size then ctx.begin + (size - before) else logPtr + size

def rdmaAddSge (ctx : SyncCtx) (session : Session) (size : Nat) : Option Session :=
  if size = 0 then some session
  else if ctx.size < session.localStart + size - 1 then none
  else some { session with
    intervals := session.intervals ++ [⟨session.localStart,size⟩]
    intervalsStart := if session.intervals.length = 0 then session.remoteStart else session.intervalsStart }

def rdmaFinalize (session : Session) : Session :=
  if session.intervals.length = 0 then session
  else { session with
    intervals := []
    rotated := false
    rdmaEntries := session.rdmaEntries ++
      [⟨session.intervalsStart,(session.intervals.map Segment.count).sum,session.intervals,session.rotated⟩] }

def lag (session : Session) : Nat := (session.localStart + 2 ^ 64 - session.remoteStart) % 2 ^ 64

def finalizeFull (session : Session) (remoteInterval interval size : Nat) : Session :=
  if (remoteInterval = interval ∧ interval < size ∧ interval ≠ 0) ∨ session.intervals.length = maxRdmaSge then
    rdmaFinalize session
  else session

def moveRemote (fuel : Nat) (ctx : SyncCtx) (remoteInterval interval size : Nat) (session : Session) : Option Session :=
  if remoteInterval = interval ∧ interval < size then
    some { session with remoteEnd := session.remoteStart + interval - 1,remoteStart := ctx.begin,rotated := true }
  else (moveLogPtr fuel ctx session.remoteStart (lag session) interval).map ({ session with remoteStart := · })

def moveLocal (fuel : Nat) (ctx : SyncCtx) (localInterval interval size : Nat) (session : Session) : Option Session :=
  if localInterval = interval ∧ interval < size then some { session with localStart := ctx.begin }
  else (moveLogPtr fuel ctx session.localStart 0 interval).map ({ session with localStart := · })

-- One pass of the loop of `generate_rsync_msgs`, with the number of blocks still to send. The
-- remote pointer moves first: its lag is taken from the local one.
def rsyncPass (fuel : Nat) (ctx : SyncCtx) (pass : Session × Nat) : Option (Session × Nat) := do
  let (session,size) := pass
  let localInterval ← nrBlksBeforeWrap fuel ctx session.localStart 0 size
  let remoteInterval ← nrBlksBeforeWrap fuel ctx session.remoteStart (lag session) size
  let interval := min localInterval remoteInterval
  let added ← rdmaAddSge ctx session interval
  let remote ← moveRemote fuel ctx remoteInterval interval size (finalizeFull added remoteInterval interval size)
  let both ← moveLocal fuel ctx localInterval interval size remote
  some ({ both with nToSyncBlk := both.nToSyncBlk + interval },size - interval)

def generateRsyncMsgs (fuel : Nat) (ctx : SyncCtx) (session : Session) : Option Session :=
  (loop (fun pass => pass.2 == 0) (rsyncPass fuel ctx) fuel (session,session.nUnsyncBlk)).map fun pass =>
    rdmaFinalize pass.1

def resetStart (ctx : SyncCtx) (start : Nat) : Nat :=
  if ctx.logEnd ≠ 0 ∧ ctx.logEnd < start then ctx.begin else start

def sentPeer (peer : Peer) (localStart : Nat) (session : Session) : Peer :=
  { peer with
    localStart := localStart
    remoteStart := session.remoteStart
    remoteEnd := if session.remoteEnd = 0 then peer.remoteEnd else session.remoteEnd
    availVersion := if session.remoteEnd = 0 then peer.availVersion else peer.availVersion + 1
    nUnsync := peer.nUnsync - session.nUnsync
    nUnsyncBlk := peer.nUnsyncBlk - session.nUnsyncBlk
    nUsed := peer.nUsed + session.nToSync
    nUsedBlk := peer.nUsedBlk + session.nToSyncBlk
    nPending := peer.nPending + session.nToSync }

-- `create_rsync` without coalescing: the RDMA writes and the peer's new state. The two
-- assertions at the end stop LibFS.
def createRsync (fuel : Nat) (ctx : SyncCtx) (peer : Peer) (nBlk : Nat) : Option (List RdmaEntry × Peer) := do
  match ← startRsyncSession ctx peer nBlk with
  | none => some ([],peer)
  | some session =>
    let session := { session with localStart := resetStart ctx session.localStart }
    let localStart ← moveLogPtr fuel ctx session.localStart 0 session.nUnsyncBlk
    let session ← generateRsyncMsgs fuel ctx session
    if session.nUnsyncBlk = session.nToSyncBlk ∧ session.localStart = session.remoteStart then
      some (session.rdmaEntries,sentPeer peer localStart session)
    else none

def place (ctx : SyncCtx) (tail nrBlocks : Nat) : Nat := if ctx.size < tail + nrBlocks then ctx.begin else tail

def layout (ctx : SyncCtx) : Nat → List Nat → List Tx
  | _,[] => []
  | tail,nrBlocks :: rest =>
    ⟨place ctx tail nrBlocks,nrBlocks⟩ :: layout ctx (place ctx tail nrBlocks + nrBlocks) rest

def wraps (ctx : SyncCtx) : Nat → List Nat → Nat
  | _,[] => 0
  | tail,nrBlocks :: rest =>
    (if ctx.size < tail + nrBlocks then 1 else 0) + wraps ctx (place ctx tail nrBlocks + nrBlocks) rest

def wrapPoint (ctx : SyncCtx) : Nat → List Nat → Option Nat
  | _,[] => none
  | tail,nrBlocks :: rest => if ctx.size < tail + nrBlocks then some tail else wrapPoint ctx (tail + nrBlocks) rest

def blocksOf (txs : List Segment) : List Nat := txs.flatMap fun tx => List.range' tx.first tx.count

-- The marker is what `log_alloc` stored when the tail last wrapped, or 0.
def LastWrap (ctx : SyncCtx) (localStart : Nat) (sizes : List Nat) : Prop :=
  ctx.logEnd = 0 ∨
    match wrapPoint ctx localStart sizes with
    | none => ctx.begin ≤ ctx.logEnd ∧ ctx.logEnd < ctx.size
    | some tail => ctx.logEnd + 1 = tail

instance (ctx : SyncCtx) (localStart : Nat) (sizes : List Nat) : Decidable (LastWrap ctx localStart sizes) := by
  unfold LastWrap
  cases wrapPoint ctx localStart sizes <;> infer_instance

structure Unsynced (ctx : SyncCtx) (localStart : Nat) (sizes : List Nat) : Prop where
  positive : ∀ nrBlocks ∈ sizes, 0 < nrBlocks
  area : 0 < ctx.begin ∧ ctx.begin ≤ localStart ∧ localStart ≤ ctx.size ∧ ctx.size < 2 ^ 64
  headers : ∀ tx ∈ layout ctx localStart sizes, ctx.log (ctx.home tx.first) = ⟨tx.count,lhCommitMagic⟩
  fits : ∀ tx ∈ layout ctx localStart sizes, tx.stop ≤ ctx.size
  once : wraps ctx localStart sizes ≤ 1
  marked : LastWrap ctx localStart sizes

instance (ctx : SyncCtx) (localStart : Nat) (sizes : List Nat) : Decidable (Unsynced ctx localStart sizes) :=
  decidable_of_iff ((∀ nrBlocks ∈ sizes, 0 < nrBlocks) ∧
      (0 < ctx.begin ∧ ctx.begin ≤ localStart ∧ localStart ≤ ctx.size ∧ ctx.size < 2 ^ 64) ∧
      (∀ tx ∈ layout ctx localStart sizes, ctx.log (ctx.home tx.first) = ⟨tx.count,lhCommitMagic⟩) ∧
      (∀ tx ∈ layout ctx localStart sizes, tx.stop ≤ ctx.size) ∧ wraps ctx localStart sizes ≤ 1 ∧
      LastWrap ctx localStart sizes)
    ⟨fun ⟨a,b,c,d,e,f⟩ => ⟨a,b,c,d,e,f⟩,fun known => ⟨known.1,known.2,known.3,known.4,known.5,known.6⟩⟩

-- The headers of a segment that wraps, which are read without the map table, stand at their own places.
def HeadersHome (ctx : SyncCtx) (localStart : Nat) (sizes : List Nat) : Prop :=
  wrapPoint ctx localStart sizes = none ∨ ∀ tx ∈ layout ctx localStart sizes, ctx.home tx.first = tx.first

-- The marker tells whether the tail wrapped behind `local_start`. Without it, only a block that reads as too large a
-- header stops the count.
def MarkerTells (ctx : SyncCtx) (localStart : Nat) (sizes : List Nat) : Prop :=
  match wrapPoint ctx localStart sizes with
  | none => ctx.logEnd = 0 ∨ localStart ≤ ctx.logEnd
  | some tail => ctx.logEnd ≠ 0 ∨
      ctx.size < tail + (ctx.log tail).nrLogBlocks ∨ sizes.sum < tail - localStart + (ctx.log tail).nrLogBlocks

instance (ctx : SyncCtx) (localStart : Nat) (sizes : List Nat) : Decidable (MarkerTells ctx localStart sizes) := by
  unfold MarkerTells
  cases wrapPoint ctx localStart sizes <;> infer_instance

def lined (first : Nat) : List Nat → List Tx
  | [] => []
  | nrBlocks :: rest => ⟨first,nrBlocks⟩ :: lined (first + nrBlocks) rest

variable {ctx : SyncCtx} {sizes after before : List Nat} {start fuel nBlk nrBlocks localStart current nrBlks v : Nat}
    {session : Session} {peer : Peer}

def Follows (ctx : SyncCtx) (tail : Nat) (sizes : List Nat) (next : Nat) : Prop :=
  ∀ more, layout ctx tail (sizes ++ more) = layout ctx tail sizes ++ layout ctx next more

theorem Follows.cons {tail next : Nat} (follows : Follows ctx (place ctx tail nrBlocks + nrBlocks) sizes next) :
    Follows ctx tail (nrBlocks :: sizes) next := by
  intro more
  rw [cons_append,layout,follows more]
  rfl

theorem layout_lined {tail : Nat} (never : wraps ctx tail sizes = 0) :
    layout ctx tail sizes = lined tail sizes ∧ wrapPoint ctx tail sizes = none ∧
      Follows ctx tail sizes (tail + sizes.sum) := by
  induction sizes generalizing tail with
  | nil => exact ⟨rfl,rfl,fun _ => rfl⟩
  | cons nrBlocks rest ih =>
    simp only [wraps] at never
    have here : ¬ ctx.size < tail + nrBlocks := by
      intro beyond
      rw [if_pos beyond] at never
      omega
    have placed : place ctx tail nrBlocks = tail := if_neg here
    rw [if_neg here,placed,zero_add] at never
    obtain ⟨rest_,point,follows⟩ := ih never
    simp only [layout,placed,lined,wrapPoint,if_neg here,rest_,point,true_and]
    rw [sum_cons,← add_assoc]
    exact .cons (placed.symm ▸ follows)

theorem layout_split {tail : Nat} (once : wraps ctx tail sizes ≤ 1) :
    layout ctx tail sizes = lined tail sizes ∧ wrapPoint ctx tail sizes = none ∧
        Follows ctx tail sizes (tail + sizes.sum) ∨
      ∃ before nrBlocks after, sizes = before ++ nrBlocks :: after ∧ ctx.size < tail + before.sum + nrBlocks ∧
        layout ctx tail sizes = lined tail before ++ lined ctx.begin (nrBlocks :: after) ∧
        wrapPoint ctx tail sizes = some (tail + before.sum) ∧
        Follows ctx tail sizes (ctx.begin + (nrBlocks :: after).sum) := by
  induction sizes generalizing tail with
  | nil => exact .inl ⟨rfl,rfl,fun _ => rfl⟩
  | cons nrBlocks rest ih =>
    simp only [wraps] at once
    by_cases beyond : ctx.size < tail + nrBlocks
    · have placed : place ctx tail nrBlocks = ctx.begin := if_pos beyond
      rw [if_pos beyond,placed] at once
      have never : wraps ctx (ctx.begin + nrBlocks) rest = 0 := by omega
      obtain ⟨all,_,follows⟩ := layout_lined never
      refine .inr ⟨[],nrBlocks,rest,rfl,beyond,?_,?_,?_⟩
      · rw [layout,placed,all]
        rfl
      · rw [wrapPoint,if_pos beyond]
        rfl
      · rw [sum_cons,← add_assoc]
        exact .cons (placed.symm ▸ follows)
    · have placed : place ctx tail nrBlocks = tail := if_neg beyond
      rw [if_neg beyond,placed,zero_add] at once
      rw [layout,placed,wrapPoint,if_neg beyond]
      rcases ih once with ⟨all,point,follows⟩ | ⟨before,first,after,rfl,later,split,point,follows⟩
      · refine .inl ⟨by rw [all]; rfl,point,?_⟩
        rw [sum_cons,← add_assoc]
        exact .cons (placed.symm ▸ follows)
      · refine .inr ⟨nrBlocks :: before,first,after,rfl,?_,?_,?_,.cons (placed.symm ▸ follows)⟩
        · rw [sum_cons,← add_assoc]
          exact later
        · rw [split]
          rfl
        · rw [point,sum_cons,add_assoc]

theorem lined_stop {first : Nat} {limit : Nat} (low : first ≤ limit)
    (fits : ∀ tx ∈ lined first sizes, tx.stop ≤ limit) : first + sizes.sum ≤ limit := by
  induction sizes generalizing first with
  | nil => exact low
  | cons nrBlocks rest ih =>
    have next := ih (fits ⟨first,nrBlocks⟩ mem_cons_self) (fun tx listed => fits tx (mem_cons_of_mem _ listed))
    rwa [sum_cons,← add_assoc]

theorem blocksOf_lined (first : Nat) (sizes : List Nat) : blocksOf (lined first sizes) = List.range' first sizes.sum := by
  induction sizes generalizing first with
  | nil => rfl
  | cons nrBlocks rest ih =>
    have step := ih (first + nrBlocks)
    unfold blocksOf at step ⊢
    rw [lined,flatMap_cons,step,sum_cons,range'_append_1]

variable {size : Nat} {last : Session}

theorem countTxs_lined :
    ∀ {current nrBlks : Nat}, (∀ nrBlocks ∈ sizes, 0 < nrBlocks) → 0 < current →
      (∀ tx ∈ lined current sizes, ctx.log tx.first = ⟨tx.count,lhCommitMagic⟩) →
      start + nrBlks + sizes.sum ≤ ctx.size → nrBlks + sizes.sum < size →
      (ctx.logEnd = 0 ∨ ctx.logEnd + 1 = current + sizes.sum) → ∀ fuel,
      countTxs ctx start size (fuel + sizes.length) current nrBlks =
        countTxs ctx start size fuel
          (if sizes = [] ∨ ctx.logEnd = 0 then current + sizes.sum else ctx.begin) (nrBlks + sizes.sum) := by
  induction sizes with
  | nil => intros; simp
  | cons nrBlocks rest ih =>
    intro current nrBlks positive above headers room fewer marked fuel
    have some_ := positive nrBlocks mem_cons_self
    have header := headers ⟨current,nrBlocks⟩ mem_cons_self
    dsimp only at header
    simp only [sum_cons] at room fewer marked ⊢
    have fits : start + nrBlks + nrBlocks ≤ ctx.size ∧ nrBlks + nrBlocks ≤ size := by omega
    have more : nrBlks + nrBlocks ≠ size := by omega
    rw [length_cons,← add_assoc,countTxs]
    simp only [header,fits,and_self,if_true,ne_eq,not_true_eq_false,if_false,more]
    cases rest with
    | nil =>
      simp only [sum_nil,add_zero,length_nil,reduceCtorEq,false_or] at marked ⊢
      congr 1
      unfold nextLoghdrBlknr
      rcases marked with zero | last
      · rw [if_neg (by omega),if_pos zero]
      · rw [if_pos (by omega),if_neg (by omega)]
    | cons next later =>
      have following := positive next (by simp)
      have contiguous : nextLoghdrBlknr current nrBlocks ctx.begin ctx.logEnd = current + nrBlocks := by
        unfold nextLoghdrBlknr
        refine if_neg ?_
        simp only [sum_cons] at marked
        omega
      rw [contiguous,ih (fun n listed => positive n (mem_cons_of_mem _ listed)) (by omega)
        (fun tx listed => headers tx (mem_cons_of_mem _ listed)) (by omega) (by omega) (by omega) fuel]
      simp only [reduceCtorEq,false_or,add_assoc]

theorem nrBlksBeforeWrap_whole {lag size : Nat} (fits : start + size ≤ ctx.size) :
    nrBlksBeforeWrap fuel ctx start lag size = some size := if_neg (by omega)

theorem moveLogPtr_whole {logPtr lag size : Nat} (fits : logPtr + size ≤ ctx.size) :
    moveLogPtr fuel ctx logPtr lag size = some (logPtr + size) := by
  unfold moveLogPtr
  split
  · rename_i zero
    rw [zero,add_zero]
  · rw [nrBlksBeforeWrap_whole fits,map_some,if_neg (by omega)]

theorem lag_same (same : session.localStart = session.remoteStart) : lag session = 0 := by
  unfold lag
  omega

theorem start_lag (local_ : session.localStart < 2 ^ 64) (remote : session.remoteStart < 2 ^ 64) :
    (session.remoteStart + lag session) % 2 ^ 64 = session.localStart := by
  unfold lag
  generalize session.localStart = a at *
  generalize session.remoteStart = b at *
  omega

theorem rsyncPass_whole (fuel : Nat) (session : Session) (some_ : 0 < size)
    (here : session.localStart + size ≤ ctx.size) (there : session.remoteStart + size ≤ ctx.size)
    (empty : session.intervals = []) :
    rsyncPass fuel ctx (session,size) = some ({ session with
      intervals := [⟨session.localStart,size⟩]
      intervalsStart := session.remoteStart
      localStart := session.localStart + size
      remoteStart := session.remoteStart + size
      nToSyncBlk := session.nToSyncBlk + size },0) := by
  have inLog : ¬ ctx.size < session.localStart + size - 1 := by omega
  have notZero : size ≠ 0 := by omega
  simp only [rsyncPass,finalizeFull,moveRemote,moveLocal,nrBlksBeforeWrap_whole here,nrBlksBeforeWrap_whole there,bind_eq_bind,bind_some,
    min_self,rdmaAddSge,notZero,if_false,inLog,empty,nil_append,length_nil,if_true,lt_irrefl,
    and_false,false_and,false_or,length_singleton,maxRdmaSge,Nat.reduceEqDiff,moveLogPtr_whole here,
    moveLogPtr_whole there,map_some,Nat.sub_self]

theorem rsyncPass_cut (session : Session) {size before : Nat} (some_ : 0 < before)
    (fewer : before < size) (here : session.localStart + before ≤ ctx.size)
    (same : session.remoteStart = session.localStart) (empty : session.intervals = [])
    (counted : nrBlksBeforeWrap fuel ctx session.localStart 0 size = some before) :
    rsyncPass fuel ctx (session,size) = some ({ session with
      intervals := []
      intervalsStart := session.localStart
      localStart := ctx.begin
      remoteStart := ctx.begin
      remoteEnd := session.localStart + before - 1
      rotated := true
      nToSyncBlk := session.nToSyncBlk + before
      rdmaEntries := session.rdmaEntries ++ [⟨session.localStart,before,[⟨session.localStart,before⟩],session.rotated⟩] },
      size - before) := by
  have inLog : ¬ ctx.size < session.localStart + before - 1 := by omega
  have notZero : before ≠ 0 := by omega
  have noLag : lag session = 0 := lag_same same.symm
  simp only [rsyncPass,finalizeFull,moveRemote,moveLocal,noLag,same,counted,bind_eq_bind,bind_some,min_self,rdmaAddSge,notZero,if_false,
    inLog,empty,nil_append,length_nil,if_true,fewer,and_self,ne_eq,not_false_eq_true,true_or,rdmaFinalize,
    length_singleton,map_cons,map_nil,sum_cons,sum_nil,add_zero,one_ne_zero]

theorem rsyncPass_skip (session : Session) (some_ : 0 < size)
    (there : nrBlksBeforeWrap fuel ctx session.remoteStart (lag session) size = some 0) (empty : session.intervals = [])
    (here : nrBlksBeforeWrap fuel ctx session.localStart 0 size = some 0 ∨
      session.localStart = ctx.begin ∧ nrBlksBeforeWrap fuel ctx session.localStart 0 size = some size) :
    rsyncPass fuel ctx (session,size) = some ({ session with
      localStart := ctx.begin
      remoteStart := ctx.begin
      remoteEnd := session.remoteStart - 1
      rotated := true },size) := by
  have notZero : size ≠ 0 := by omega
  rcases here with none | ⟨first,all⟩
  · simp only [rsyncPass,finalizeFull,moveRemote,moveLocal,there,none,bind_eq_bind,bind_some,min_self,rdmaAddSge,if_true,empty,
      length_nil,maxRdmaSge,ne_eq,not_true_eq_false,and_false,or_self,if_false,some_,and_self,
      add_zero,Nat.sub_zero,reduceCtorEq]
  · rw [first] at all
    simp only [rsyncPass,finalizeFull,moveRemote,moveLocal,first,there,all,bind_eq_bind,bind_some,Nat.min_zero,rdmaAddSge,if_true,empty,
      length_nil,maxRdmaSge,ne_eq,not_true_eq_false,and_false,or_self,if_false,some_,and_self,
      add_zero,Nat.sub_zero,notZero,false_and,moveLogPtr,map_some,reduceCtorEq]

structure Delivered (ctx : SyncCtx) (localStart : Nat) (sizes : List Nat) (entries : List RdmaEntry) : Prop where
  blocks : entries.flatMap (fun entry => blocksOf entry.sges) = blocksOf (layout ctx localStart sizes)
  inPlace : ∀ entry ∈ entries, blocksOf entry.sges = List.range' entry.addr entry.length
  within : ∀ entry ∈ entries, ctx.begin ≤ entry.addr ∧ entry.addr + entry.length ≤ ctx.size
  pieces : ∀ entry ∈ entries, entry.sges.length ≤ maxRdmaSge

theorem blocksOf_single (first count : Nat) : blocksOf [⟨first,count⟩] = List.range' first count := by
  simp [blocksOf]

theorem loop_next (passes : Nat) {next : Session × Nat} (some_ : 0 < size)
    (passed : rsyncPass fuel ctx (session,size) = some next) :
    loop (fun pass => pass.2 == 0) (rsyncPass fuel ctx) (passes + 1) (session,size) =
      loop (fun pass => pass.2 == 0) (rsyncPass fuel ctx) passes next := by
  have more : (size == 0) = false := by simp; omega
  rw [loop]
  simp only [more,Bool.false_eq_true,if_false]
  rw [passed,bind_some]

theorem loop_last (passes : Nat) (some_ : 0 < size) (passed : rsyncPass fuel ctx (session,size) = some (last,0)) :
    loop (fun pass => pass.2 == 0) (rsyncPass fuel ctx) (passes + 1) (session,size) = some (last,0) := by
  rw [loop_next passes some_ passed]
  cases passes <;> rfl

variable (starts : startRsyncSession ctx peer nBlk = some (some session))

include starts in
theorem session_snapshot : session = snapshot peer ∧ 0 < peer.nUnsyncBlk := by
  unfold startRsyncSession at starts
  obtain ⟨used,_,rest⟩ := bind_eq_some_iff.mp starts
  split at rest
  · cases rest
  · split at rest
    · rename_i sends
      cases rest
      exact ⟨rfl,Nat.pos_of_ne_zero sends.1⟩
    · cases rest

def firstSession (ctx : SyncCtx) (peer : Peer) : Session :=
  { snapshot peer with localStart := resetStart ctx peer.localStart }

include starts in
theorem createRsync_eq :
    createRsync fuel ctx peer nBlk =
      (moveLogPtr fuel ctx (resetStart ctx peer.localStart) 0 peer.nUnsyncBlk).bind fun localStart =>
        (generateRsyncMsgs fuel ctx (firstSession ctx peer)).bind fun session =>
          if session.nUnsyncBlk = session.nToSyncBlk ∧ session.localStart = session.remoteStart then
            some (session.rdmaEntries,sentPeer peer localStart session)
          else none := by
  obtain ⟨rfl,_⟩ := session_snapshot starts
  unfold createRsync
  rw [starts]
  rfl

include starts in
theorem createRsync_sent {moved rest : Nat}
    (ptr : moveLogPtr fuel ctx (resetStart ctx peer.localStart) 0 peer.nUnsyncBlk = some moved)
    (looped : loop (fun pass => pass.2 == 0) (rsyncPass fuel ctx) fuel (firstSession ctx peer,peer.nUnsyncBlk) = some (last,rest))
    (pending : last.intervals ≠ []) (whole : last.nUnsyncBlk = last.nToSyncBlk) (same : last.localStart = last.remoteStart) :
    ∃ peer', createRsync fuel ctx peer nBlk = some (last.rdmaEntries ++
        [⟨last.intervalsStart,(last.intervals.map Segment.count).sum,last.intervals,last.rotated⟩],peer') ∧
      peer'.localStart = moved ∧ peer'.remoteStart = last.remoteStart := by
  have left : last.intervals.length ≠ 0 := fun none => pending (length_eq_zero_iff.mp none)
  have generated : generateRsyncMsgs fuel ctx (firstSession ctx peer) = some (rdmaFinalize last) := by
    unfold generateRsyncMsgs
    exact congrArg (Option.map _) looped
  rw [createRsync_eq starts,ptr,generated,bind_some,bind_some,rdmaFinalize,if_neg left,if_pos ⟨whole,same⟩]
  exact ⟨_,rfl,rfl,rfl⟩

variable (same : peer.remoteStart = peer.localStart)

include starts same in
theorem sent_whole (fuel : Nat)
    (stays : resetStart ctx peer.localStart = peer.localStart) (fits : peer.localStart + peer.nUnsyncBlk ≤ ctx.size) :
    ∃ peer', createRsync (fuel + 1) ctx peer nBlk =
        some ([⟨peer.localStart,peer.nUnsyncBlk,[⟨peer.localStart,peer.nUnsyncBlk⟩],false⟩],peer') ∧
      peer'.localStart = peer.localStart + peer.nUnsyncBlk ∧ peer'.remoteStart = peer.localStart + peer.nUnsyncBlk := by
  have first : firstSession ctx peer = { snapshot peer with remoteStart := peer.localStart } := by
    rw [firstSession,stays,snapshot,same]
  have moved : moveLogPtr (fuel + 1) ctx (resetStart ctx peer.localStart) 0 peer.nUnsyncBlk =
      some (peer.localStart + peer.nUnsyncBlk) := by rw [stays,moveLogPtr_whole fits]
  have sends := (session_snapshot starts).2
  have looped := loop_last fuel sends
    (rsyncPass_whole (fuel + 1) { snapshot peer with remoteStart := peer.localStart } sends fits fits rfl)
  rw [← first] at looped
  obtain ⟨peer',done,start,remote⟩ := createRsync_sent starts moved looped (by simp) (by simp [first,snapshot])
    (by simp [first,snapshot])
  refine ⟨peer',done.trans ?_,start,remote.trans ?_⟩
  · simp [first,snapshot]
  · simp [first]

structure Wrapped (ctx : SyncCtx) (localStart : Nat) (before : List Nat) (nrBlocks : Nat) (after : List Nat) : Prop where
  positive : ∀ n ∈ before, 0 < n
  first : 0 < ctx.begin ∧ ctx.begin ≤ localStart
  small : ctx.size < 2 ^ 64
  older : ∀ tx ∈ lined localStart before, ctx.log tx.first = ⟨tx.count,lhCommitMagic⟩
  newer : ctx.log ctx.begin = ⟨nrBlocks,lhCommitMagic⟩
  room : localStart + before.sum ≤ ctx.size
  beyond : ctx.size < localStart + before.sum + nrBlocks
  rest : ctx.begin + (nrBlocks :: after).sum ≤ ctx.size
  marked : ctx.logEnd = 0 ∨ ctx.logEnd + 1 = localStart + before.sum

theorem Wrapped.count
    (wrapped : Wrapped ctx localStart before nrBlocks after) (fuel : Nat) :
    nrBlksBeforeWrap (fuel + before.length) ctx localStart 0 (before ++ nrBlocks :: after).sum =
      countTxs ctx localStart (before ++ nrBlocks :: after).sum fuel
        (if before = [] ∨ ctx.logEnd = 0 then localStart + before.sum else ctx.begin) before.sum := by
  have total : (before ++ nrBlocks :: after).sum = before.sum + (nrBlocks + after.sum) := by simp
  have beyond := wrapped.beyond
  have room := wrapped.room
  have small := wrapped.small
  have low := wrapped.first
  rw [nrBlksBeforeWrap,if_pos (by omega),add_zero,Nat.mod_eq_of_lt (by omega)]
  have walked := @countTxs_lined ctx before localStart (before ++ nrBlocks :: after).sum localStart 0 wrapped.positive (by omega) wrapped.older (by omega) (by omega) wrapped.marked fuel
  rwa [zero_add] at walked

theorem countTxs_stops
    (large : ctx.size < start + nrBlks + (ctx.log current).nrLogBlocks ∨ size < nrBlks + (ctx.log current).nrLogBlocks) :
    countTxs ctx start size (fuel + 1) current nrBlks = some nrBlks := by
  rw [countTxs,if_neg]
  omega

theorem Wrapped.counted
    (wrapped : Wrapped ctx localStart before nrBlocks after) (fuel : Nat)
    (told : ctx.logEnd ≠ 0 ∧ before ≠ [] ∨ ctx.size < localStart + before.sum + (ctx.log (localStart + before.sum)).nrLogBlocks ∨
      (before ++ nrBlocks :: after).sum < before.sum + (ctx.log (localStart + before.sum)).nrLogBlocks) :
    nrBlksBeforeWrap (fuel + 1 + before.length) ctx localStart 0 (before ++ nrBlocks :: after).sum = some before.sum := by
  rw [wrapped.count]
  by_cases marker : ctx.logEnd ≠ 0 ∧ before ≠ []
  · rw [if_neg (by tauto)]
    refine countTxs_stops (.inl ?_)
    rw [wrapped.newer]
    exact wrapped.beyond
  · rw [if_pos (by tauto)]
    exact countTxs_stops (told.resolve_left marker)

theorem moveLogPtr_wraps {logPtr size before : Nat} (some_ : 0 < size)
    (beyond : ctx.size < logPtr + size) (counted : nrBlksBeforeWrap fuel ctx logPtr 0 size = some before) :
    moveLogPtr fuel ctx logPtr 0 size = some (ctx.begin + (size - before)) := by
  rw [moveLogPtr,if_neg (by omega),counted,map_some,if_pos beyond]

include starts same in
theorem sent_cut (wrapped : Wrapped ctx peer.localStart before nrBlocks after)
    (all : peer.nUnsyncBlk = (before ++ nrBlocks :: after).sum) (older : 0 < before.sum)
    (counted : nrBlksBeforeWrap (fuel + 2) ctx peer.localStart 0 peer.nUnsyncBlk = some before.sum) :
    ∃ peer', createRsync (fuel + 2) ctx peer nBlk =
        some ([⟨peer.localStart,before.sum,[⟨peer.localStart,before.sum⟩],false⟩,
          ⟨ctx.begin,(nrBlocks :: after).sum,[⟨ctx.begin,(nrBlocks :: after).sum⟩],true⟩],peer') ∧
      peer'.localStart = ctx.begin + (nrBlocks :: after).sum ∧ peer'.remoteStart = ctx.begin + (nrBlocks :: after).sum := by
  have beyond := wrapped.beyond
  have room := wrapped.room
  have rest := wrapped.rest
  have total : peer.nUnsyncBlk = before.sum + (nrBlocks :: after).sum := by rw [all,sum_append]
  have behind : (nrBlocks :: after).sum = nrBlocks + after.sum := sum_cons
  have stays : resetStart ctx peer.localStart = peer.localStart := by
    have marked := wrapped.marked
    exact if_neg (by omega)
  have first : firstSession ctx peer = { snapshot peer with remoteStart := peer.localStart } := by
    rw [firstSession,stays,snapshot,same]
  have left : peer.nUnsyncBlk - before.sum = (nrBlocks :: after).sum := by omega
  have moved := moveLogPtr_wraps (session_snapshot starts).2 (by omega) counted
  rw [← stays,left] at moved
  have passed := rsyncPass_cut { snapshot peer with remoteStart := peer.localStart } older (by omega) room rfl rfl counted
  have looped := (loop_next (fuel + 1) (session_snapshot starts).2 passed).trans
    (loop_last fuel (by omega) (rsyncPass_whole _ _ (by omega) (by rw [left]; exact rest) (by rw [left]; exact rest) rfl))
  rw [← first] at looped
  obtain ⟨peer',done,start,remote⟩ := createRsync_sent starts moved looped (by simp) (by simp [first,snapshot]; omega)
    (by simp)
  refine ⟨peer',done.trans ?_,start,remote.trans ?_⟩
  · simp [first,snapshot,left]
  · simp [left]

include starts in
theorem sent_skip (fuel : Nat) (rest : ctx.begin + peer.nUnsyncBlk ≤ ctx.size)
    (moved : moveLogPtr (fuel + 2) ctx (resetStart ctx peer.localStart) 0 peer.nUnsyncBlk = some (ctx.begin + peer.nUnsyncBlk))
    (there : nrBlksBeforeWrap (fuel + 2) ctx peer.remoteStart (lag (firstSession ctx peer)) peer.nUnsyncBlk = some 0)
    (here : nrBlksBeforeWrap (fuel + 2) ctx (resetStart ctx peer.localStart) 0 peer.nUnsyncBlk = some 0 ∨
      resetStart ctx peer.localStart = ctx.begin) :
    ∃ peer', createRsync (fuel + 2) ctx peer nBlk =
        some ([⟨ctx.begin,peer.nUnsyncBlk,[⟨ctx.begin,peer.nUnsyncBlk⟩],true⟩],peer') ∧
      peer'.localStart = ctx.begin + peer.nUnsyncBlk ∧ peer'.remoteStart = ctx.begin + peer.nUnsyncBlk := by
  have sends := (session_snapshot starts).2
  have passed := rsyncPass_skip (firstSession ctx peer) sends there rfl
    (here.imp_right fun first => ⟨first,by
      refine (congrArg (nrBlksBeforeWrap (fuel + 2) ctx · 0 peer.nUnsyncBlk) first).trans ?_
      exact nrBlksBeforeWrap_whole rest⟩)
  have looped := (loop_next (fuel + 1) sends passed).trans
    (loop_last fuel sends (rsyncPass_whole _ _ sends rest rest rfl))
  obtain ⟨peer',done,start,remote⟩ := createRsync_sent starts moved looped (by simp) (by simp [firstSession,snapshot])
    (by simp)
  refine ⟨peer',done.trans ?_,start,remote.trans ?_⟩
  · simp [firstSession,snapshot]
  · simp

theorem blocksOf_append (front back : List Segment) : blocksOf (front ++ back) = blocksOf front ++ blocksOf back :=
  flatMap_append

theorem Unsynced.cases (unsynced : Unsynced ctx localStart sizes) (home : HeadersHome ctx localStart sizes) :
    wrapPoint ctx localStart sizes = none ∧ layout ctx localStart sizes = lined localStart sizes ∧
        localStart + sizes.sum ≤ ctx.size ∧ Follows ctx localStart sizes (localStart + sizes.sum) ∨
      ∃ before nrBlocks after, sizes = before ++ nrBlocks :: after ∧
        wrapPoint ctx localStart sizes = some (localStart + before.sum) ∧
        layout ctx localStart sizes = lined localStart before ++ lined ctx.begin (nrBlocks :: after) ∧
        Wrapped ctx localStart before nrBlocks after ∧
        Follows ctx localStart sizes (ctx.begin + (nrBlocks :: after).sum) := by
  obtain ⟨above,low,high,small⟩ := unsynced.area
  have fits := unsynced.fits
  have marked := unsynced.marked
  rcases layout_split unsynced.once with ⟨all,point,follows⟩ | ⟨before,nrBlocks,after,split,beyond,parts,point,follows⟩
  · rw [all] at fits
    exact .inl ⟨point,all,lined_stop high fits,follows⟩
  · refine .inr ⟨before,nrBlocks,after,split,point,parts,?_,follows⟩
    have headers : ∀ tx ∈ layout ctx localStart sizes, ctx.log tx.first = ⟨tx.count,lhCommitMagic⟩ := fun tx listed => by
      rw [←unsynced.headers tx listed,home.resolve_left (by rw [point]; simp) tx listed]
    rw [parts] at fits headers
    simp only [LastWrap,point] at marked
    have first := fits ⟨ctx.begin,nrBlocks⟩ (mem_append_right _ mem_cons_self)
    exact {
      positive := fun n listed => unsynced.positive n (by rw [split]; exact mem_append_left _ listed)
      first := ⟨above,low⟩
      small := small
      older := fun tx listed => headers tx (mem_append_left _ listed)
      newer := headers ⟨ctx.begin,nrBlocks⟩ (mem_append_right _ mem_cons_self)
      room := lined_stop high fun tx listed => fits tx (mem_append_left _ listed)
      beyond := beyond
      rest := lined_stop (le_trans low high) fun tx listed => fits tx (mem_append_right _ listed)
      marked := marked }

include starts same in
theorem sent_wrapped_first
    (wrapped : Wrapped ctx peer.localStart [] nrBlocks after) (all : peer.nUnsyncBlk = (nrBlocks :: after).sum)
    (told : ctx.logEnd ≠ 0 ∨ ctx.size < peer.localStart + (ctx.log peer.localStart).nrLogBlocks ∨
      peer.nUnsyncBlk < (ctx.log peer.localStart).nrLogBlocks) :
    ∃ peer', createRsync 2 ctx peer nBlk =
        some ([⟨ctx.begin,peer.nUnsyncBlk,[⟨ctx.begin,peer.nUnsyncBlk⟩],true⟩],peer') ∧
      peer'.localStart = ctx.begin + peer.nUnsyncBlk ∧ peer'.remoteStart = ctx.begin + peer.nUnsyncBlk := by
  have sends := (session_snapshot starts).2
  have beyond := wrapped.beyond
  have rest := wrapped.rest
  have marked := wrapped.marked
  have small := wrapped.small
  have total : (nrBlocks :: after).sum = nrBlocks + after.sum := sum_cons
  simp only [sum_nil,add_zero] at beyond marked
  rw [← all] at rest
  by_cases zero : ctx.logEnd = 0
  · have stays : resetStart ctx peer.localStart = peer.localStart := if_neg (by omega)
    have counted : nrBlksBeforeWrap 2 ctx peer.localStart 0 peer.nUnsyncBlk = some 0 := by
      have found := wrapped.counted 1 (.inr (by
        simpa [← total,← all] using told.resolve_left (by simp [zero])))
      simpa [← total,← all] using found
    have noLag : lag (firstSession ctx peer) = 0 := lag_same (by rw [firstSession,stays]; exact same.symm)
    have moved := moveLogPtr_wraps sends (by omega) counted
    rw [← stays,Nat.sub_zero] at moved
    exact sent_skip starts 0 rest moved (by rw [noLag,same]; exact counted) (.inl (by rw [stays]; exact counted))
  · have back : resetStart ctx peer.localStart = ctx.begin := if_pos (by omega)
    have moved : moveLogPtr 2 ctx (resetStart ctx peer.localStart) 0 peer.nUnsyncBlk = some (ctx.begin + peer.nUnsyncBlk) := by
      rw [back,moveLogPtr_whole rest]
    refine sent_skip starts 0 rest moved ?_ (.inr back)
    have room := wrapped.room
    simp only [sum_nil,add_zero] at room
    have local_ : (firstSession ctx peer).localStart < 2 ^ 64 := by
      change resetStart ctx peer.localStart < 2 ^ 64
      omega
    have remote : (firstSession ctx peer).remoteStart < 2 ^ 64 := by
      change peer.remoteStart < 2 ^ 64
      omega
    have there : (peer.remoteStart + lag (firstSession ctx peer)) % 2 ^ 64 = ctx.begin := (start_lag local_ remote).trans back
    rw [nrBlksBeforeWrap,if_pos (by omega),there]
    refine countTxs_stops (.inl ?_)
    rw [wrapped.newer]
    dsimp only
    omega

include starts same in
theorem createRsync_delivers
    (unsynced : Unsynced ctx peer.localStart sizes) (home : HeadersHome ctx peer.localStart sizes)
    (all : peer.nUnsyncBlk = sizes.sum)
    (told : MarkerTells ctx peer.localStart sizes) :
    ∃ fuel entries peer', createRsync fuel ctx peer nBlk = some (entries,peer') ∧
      Delivered ctx peer.localStart sizes entries ∧ Follows ctx peer.localStart sizes peer'.localStart := by
  have low := unsynced.area.2.1
  rcases unsynced.cases home with ⟨point,whole,fits,follows⟩ | ⟨before,nrBlocks,after,rfl,point,parts,wrapped,follows⟩
  · simp only [MarkerTells,point] at told
    obtain ⟨peer',done,start,_⟩ := sent_whole starts same 0 (if_neg (by omega)) (by omega)
    refine ⟨_,_,peer',done,⟨?_,?_,?_,?_⟩,by rwa [start,all]⟩
    · rw [flatMap_singleton,blocksOf_single,whole,blocksOf_lined,all]
    · simp [blocksOf_single]
    · simp only [mem_singleton,forall_eq]
      omega
    · simp [maxRdmaSge]
  · have room := wrapped.room
    have rest := wrapped.rest
    simp only [MarkerTells,point,Nat.add_sub_cancel_left] at told
    by_cases none : before = []
    · subst none
      obtain ⟨peer',done,start,_⟩ := sent_wrapped_first starts same wrapped all (by simpa [all] using told)
      refine ⟨_,_,peer',done,⟨?_,?_,?_,?_⟩,by rwa [start,all]⟩
      · rw [flatMap_singleton,blocksOf_single,parts,blocksOf_append,blocksOf_lined,blocksOf_lined,all]
        rfl
      · simp [blocksOf_single]
      · simp only [mem_singleton,forall_eq,all,nil_append]
        omega
      · simp [maxRdmaSge]
    · have older : 0 < before.sum := by
        obtain ⟨n,listed⟩ := exists_mem_of_ne_nil before none
        exact lt_of_lt_of_le (wrapped.positive n listed) (le_sum_of_mem listed)
      have counted := wrapped.counted 1 (told.imp_left fun set => ⟨set,none⟩)
      rw [← all,add_comm] at counted
      obtain ⟨peer',done,start,_⟩ := sent_cut starts same wrapped all older counted
      refine ⟨_,_,peer',done,⟨?_,?_,?_,?_⟩,by rwa [start]⟩
      · rw [parts,blocksOf_append,blocksOf_lined,blocksOf_lined]
        simp [blocksOf_single]
      · simp [blocksOf_single]
      · simp only [mem_cons,not_mem_nil,or_false,forall_eq_or_imp,forall_eq]
        omega
      · simp [maxRdmaSge]

include starts same in
-- A marker left by an earlier wrap sends the local pointer back: the pointers end apart.
theorem createRsync_stale
    (fits : peer.localStart + peer.nUnsyncBlk ≤ ctx.size) (older : ctx.begin ≤ ctx.logEnd)
    (stale : ctx.logEnd ≠ 0 ∧ ctx.logEnd < peer.localStart) (fuel : Nat) : createRsync fuel ctx peer nBlk = none := by
  have sends := (session_snapshot starts).2
  have back : resetStart ctx peer.localStart = ctx.begin := if_pos stale
  have first : firstSession ctx peer = { snapshot peer with localStart := ctx.begin } := by rw [firstSession,back]
  rw [createRsync_eq starts,back,moveLogPtr_whole (by omega),bind_some]
  cases fuel with
  | zero =>
    have stuck : generateRsyncMsgs 0 ctx (firstSession ctx peer) = none := by
      have more : ((firstSession ctx peer).nUnsyncBlk == 0) = false := by
        rw [first]
        exact beq_false_of_ne sends.ne'
      simp [generateRsyncMsgs,loop,more]
    rw [stuck,bind_none]
  | succ fuel =>
    have looped := loop_last fuel sends (rsyncPass_whole (fuel + 1) { snapshot peer with localStart := ctx.begin } sends
      (show ctx.begin + peer.nUnsyncBlk ≤ ctx.size by omega) (by dsimp only [snapshot]; omega) rfl)
    have generated := congrArg (Option.map fun pass => rdmaFinalize pass.1) looped
    rw [first]
    unfold generateRsyncMsgs
    dsimp only [snapshot] at generated ⊢
    rw [generated,map_some,bind_some]
    refine if_neg fun ends => ?_
    have together := ends.2
    simp only [rdmaFinalize,length_singleton,one_ne_zero,if_false] at together
    omega

theorem countTxs_range
    (counted : countTxs ctx start size fuel current nrBlks = some v) :
    nrBlks ≤ v ∧ (start + nrBlks ≤ ctx.size → start + v ≤ ctx.size) := by
  induction fuel generalizing current nrBlks with
  | zero => cases counted
  | succ fuel ih =>
    rw [countTxs] at counted
    split at counted
    · split at counted
      · split at counted
        · cases counted; exact ⟨le_refl _,id⟩
        · cases counted
      · split at counted
        · cases counted; omega
        · have later := ih counted
          omega
    · cases counted; exact ⟨le_refl _,id⟩

theorem countTxs_fuel
    (counted : countTxs ctx start size fuel current nrBlks = some v) (more : Nat) :
    countTxs ctx start size (fuel + more) current nrBlks = some v := by
  induction fuel generalizing current nrBlks with
  | zero => cases counted
  | succ fuel ih =>
    rw [Nat.add_right_comm,countTxs]
    rw [countTxs] at counted
    split at counted
    · rename_i fits
      rw [if_pos fits]
      split at counted
      · rename_i free
        rw [if_pos free]
        exact counted
      · rename_i committed
        rw [if_neg committed]
        split at counted
        · rename_i whole
          rw [if_pos whole]
          exact counted
        · rename_i less
          rw [if_neg less]
          exact ih counted
    · rename_i large
      rw [if_neg large]
      exact counted

theorem Wrapped.counts (wrapped : Wrapped ctx localStart before nrBlocks after)
    (counted : nrBlksBeforeWrap fuel ctx localStart 0 (before ++ nrBlocks :: after).sum = some v) :
    ∃ spare, countTxs ctx localStart (before ++ nrBlocks :: after).sum spare
      (if before = [] ∨ ctx.logEnd = 0 then localStart + before.sum else ctx.begin) before.sum = some v := by
  have beyond := wrapped.beyond
  have total : (before ++ nrBlocks :: after).sum = before.sum + (nrBlocks + after.sum) := by simp
  have found := wrapped.count fuel
  rw [nrBlksBeforeWrap,if_pos (by omega)] at counted found
  exact ⟨fuel,found.symm.trans (countTxs_fuel counted _)⟩

theorem countTxs_stuck (fits : start + nrBlks ≤ ctx.size ∧ nrBlks < size)
    (header : ctx.log current = ⟨0,lhCommitMagic⟩) (marker : ctx.logEnd = 0) (above : 1 < current) (fuel : Nat) :
    countTxs ctx start size fuel current nrBlks = none := by
  induction fuel with
  | zero => rfl
  | succ fuel ih =>
    have next : nextLoghdrBlknr current 0 ctx.begin ctx.logEnd = current := if_neg (by omega)
    have less : nrBlks ≠ size := by omega
    rw [countTxs,header]
    simp only [add_zero,fits.1,fits.2.le,and_self,if_true,ne_eq,not_true_eq_false,if_false,less,next,ih]

theorem countTxs_beyond
    (fits : start + nrBlks + (ctx.log current).nrLogBlocks ≤ ctx.size ∧ nrBlks + (ctx.log current).nrLogBlocks ≤ size)
    (less : nrBlks < size) (marker : ctx.logEnd = 0) (above : 1 < current)
    (counted : countTxs ctx start size fuel current nrBlks = some v) : nrBlks < v := by
  cases fuel with
  | zero => cases counted
  | succ fuel =>
    by_cases stuck : ctx.log current = ⟨0,lhCommitMagic⟩
    · rw [countTxs_stuck (by rw [stuck] at fits; omega) stuck marker above] at counted
      cases counted
    · rw [countTxs] at counted
      simp only [fits,and_self,if_true] at counted
      split at counted
      · rw [if_neg less.ne] at counted
        cases counted
      · rename_i committed
        have some_ : 0 < (ctx.log current).nrLogBlocks := by
          refine Nat.pos_of_ne_zero fun zero => stuck ?_
          rw [ne_eq,not_not] at committed
          rw [← zero,← committed]
        split at counted
        · cases counted
          omega
        · have later := (countTxs_range counted).1
          omega

def covered (session : Session) : List Nat :=
  session.rdmaEntries.flatMap (fun entry => blocksOf entry.sges) ++ blocksOf session.intervals

theorem covered_finalize (session : Session) :
    covered (rdmaFinalize session) = covered session ∧ (rdmaFinalize session).intervals = [] := by
  unfold rdmaFinalize
  split
  · rename_i none
    exact ⟨rfl,length_eq_zero_iff.mp none⟩
  · simp [covered,blocksOf]

variable {session' : Session}

theorem covered_addSge
    (added : rdmaAddSge ctx session size = some session') :
    covered session' = covered session ++ List.range' session.localStart size := by
  unfold rdmaAddSge at added
  split at added
  · rename_i zero
    cases added
    simp [zero]
  · split at added
    · cases added
    · cases added
      simp [covered,blocksOf]

theorem addSge_local
    (added : rdmaAddSge ctx session size = some session') : session'.localStart = session.localStart := by
  unfold rdmaAddSge at added
  split at added
  · cases added; rfl
  · split at added
    · cases added
    · cases added; rfl

theorem rsyncPass_parts {size size' : Nat}
    (passed : rsyncPass fuel ctx (session,size) = some (session',size')) :
    ∃ localInterval remoteInterval, nrBlksBeforeWrap fuel ctx session.localStart 0 size = some localInterval ∧
      nrBlksBeforeWrap fuel ctx session.remoteStart (lag session) size = some remoteInterval ∧
      covered session' = covered session ++ List.range' session.localStart (min localInterval remoteInterval) ∧
      size' = size - min localInterval remoteInterval ∧
      (if localInterval = min localInterval remoteInterval ∧ min localInterval remoteInterval < size then some ctx.begin
        else moveLogPtr fuel ctx session.localStart 0 (min localInterval remoteInterval)) = some session'.localStart := by
  simp only [rsyncPass,bind_eq_bind,bind_eq_some_iff] at passed
  obtain ⟨localInterval,here,remoteInterval,there,first,added,second,remote,third,local_,done⟩ := passed
  have sent : covered second = covered first ∧ second.localStart = first.localStart := by
    have kept : covered second = covered (finalizeFull first remoteInterval (min localInterval remoteInterval) size) ∧
        second.localStart = (finalizeFull first remoteInterval (min localInterval remoteInterval) size).localStart := by
      unfold moveRemote at remote
      split at remote
      · cases remote; exact ⟨rfl,rfl⟩
      · obtain ⟨moved,_,rfl⟩ := map_eq_some_iff.mp remote
        exact ⟨rfl,rfl⟩
    unfold finalizeFull at kept
    split at kept
    · refine ⟨kept.1.trans (covered_finalize first).1,kept.2.trans ?_⟩
      unfold rdmaFinalize
      split <;> rfl
    · exact kept
  have start := sent.2.trans (addSge_local added)
  refine ⟨localInterval,remoteInterval,here,there,?_⟩
  rw [← covered_addSge added,← sent.1,← start]
  cases done
  unfold moveLocal at local_
  split at local_
  · rename_i wraps
    cases local_
    exact ⟨rfl,rfl,if_pos wraps⟩
  · rename_i stays
    obtain ⟨moved,ptr,rfl⟩ := map_eq_some_iff.mp local_
    exact ⟨rfl,rfl,(if_neg stays).trans ptr⟩

theorem loop_covers {passes : Nat} {size left more : Nat}
    (looped : loop (fun pass => pass.2 == 0) (rsyncPass fuel ctx) passes (session,size) = some (last,left)) (some_ : 0 < size)
    (empty : covered session = []) (here : nrBlksBeforeWrap fuel ctx session.localStart 0 size = some more)
    (there : nrBlksBeforeWrap fuel ctx session.remoteStart (lag session) size = some more) :
    List.range' session.localStart more <+: covered last := by
  have unfinished : (size == 0) = false := beq_false_of_ne some_.ne'
  cases passes with
  | zero => simp [loop,unfinished] at looped
  | succ passes =>
    simp only [loop,unfinished,Bool.false_eq_true,if_false] at looped
    obtain ⟨⟨next,rest⟩,passed,later⟩ := bind_eq_some_iff.mp looped
    obtain ⟨_,_,here',there',grown,_⟩ := rsyncPass_parts passed
    cases here.symm.trans here'
    cases there.symm.trans there'
    rw [empty,min_self,nil_append] at grown
    refine (loop_invariant (fun pass => List.range' session.localStart more <+: covered pass.1) ?_ ?_
      (throughout_true _ _ _ _) later).1
    · intro pass pass' known _ _ stepped
      obtain ⟨_,_,_,_,longer,_⟩ := rsyncPass_parts stepped
      rw [longer]
      exact known.trans (prefix_append _ _)
    · exact grown ▸ prefix_refl _

include starts same in
theorem createRsync_unmarked (wrapped : Wrapped ctx peer.localStart before nrBlocks after)
    (all : peer.nUnsyncBlk = (before ++ nrBlocks :: after).sum) (marker : ctx.logEnd = 0)
    (fits : peer.localStart + before.sum + (ctx.log (peer.localStart + before.sum)).nrLogBlocks ≤ ctx.size ∧
      before.sum + (ctx.log (peer.localStart + before.sum)).nrLogBlocks ≤ peer.nUnsyncBlk)
    {entries : List RdmaEntry} {peer' : Peer} (done : createRsync fuel ctx peer nBlk = some (entries,peer')) :
    ∃ more, before.sum < more ∧
      List.range' peer.localStart more <+: entries.flatMap fun entry => blocksOf entry.sges := by
  have sends := (session_snapshot starts).2
  have beyond := wrapped.beyond
  have rest := wrapped.rest
  have low := wrapped.first
  have total : peer.nUnsyncBlk = before.sum + (nrBlocks + after.sum) := by rw [all]; simp
  have behind : (nrBlocks :: after).sum = nrBlocks + after.sum := sum_cons
  have stays : resetStart ctx peer.localStart = peer.localStart := if_neg (by omega)
  have noLag : lag (firstSession ctx peer) = 0 := lag_same (by rw [firstSession,stays]; exact same.symm)
  rw [createRsync_eq starts,stays] at done
  obtain ⟨moved,ptr,done⟩ := bind_eq_some_iff.mp done
  obtain ⟨final,generated,done⟩ := bind_eq_some_iff.mp done
  rw [moveLogPtr,if_neg (by omega)] at ptr
  obtain ⟨more,counted,_⟩ := map_eq_some_iff.mp ptr
  have further : before.sum < more := by
    obtain ⟨spare,found⟩ := wrapped.counts (all ▸ counted)
    rw [← all,if_pos (.inr marker)] at found
    exact countTxs_beyond fits (by omega) marker (by omega) found
  refine ⟨more,further,?_⟩
  split at done
  · cases done
    obtain ⟨⟨last,left⟩,looped,rfl⟩ := map_eq_some_iff.mp generated
    obtain ⟨kept,sent⟩ := covered_finalize last
    have whole : (rdmaFinalize last).rdmaEntries.flatMap (fun entry => blocksOf entry.sges) = covered last := by
      rw [← kept,covered,sent]
      exact (append_nil _).symm
    have local_ : (firstSession ctx peer).localStart = peer.localStart := stays
    rw [whole,← local_]
    refine loop_covers looped sends rfl ?_ ?_
    · rw [local_]
      exact counted
    · rw [noLag]
      change nrBlksBeforeWrap fuel ctx peer.remoteStart 0 peer.nUnsyncBlk = some more
      rw [same,counted]
  · cases done

include starts same in
theorem sent_told (unsynced : Unsynced ctx peer.localStart sizes) (home : HeadersHome ctx peer.localStart sizes)
    (all : peer.nUnsyncBlk = sizes.sum) {entries : List RdmaEntry} {peer' : Peer}
    (done : createRsync fuel ctx peer nBlk = some (entries,peer'))
    (blocks : entries.flatMap (fun entry => blocksOf entry.sges) = blocksOf (layout ctx peer.localStart sizes)) :
    MarkerTells ctx peer.localStart sizes := by
  by_contra untold
  rcases unsynced.cases home with ⟨point,whole,fits,_⟩ | ⟨before,nrBlocks,after,rfl,point,parts,wrapped,_⟩
  · have marked := unsynced.marked
    simp only [MarkerTells,LastWrap,point,not_or] at untold marked
    rw [createRsync_stale starts same (by omega) (by omega) (by omega)] at done
    cases done
  · have beyond := wrapped.beyond
    have room := wrapped.room
    have rest := wrapped.rest
    have low := wrapped.first
    have total : (nrBlocks :: after).sum = nrBlocks + after.sum := sum_cons
    simp only [MarkerTells,point,not_or,Nat.add_sub_cancel_left] at untold
    obtain ⟨more,further,sent⟩ := createRsync_unmarked starts same wrapped all (by omega) (by omega) done
    rw [blocks,parts,blocksOf_append,blocksOf_lined,blocksOf_lined] at sent
    -- the block after those before the wrap
    have here : (List.range' peer.localStart more)[before.sum]? = some (peer.localStart + before.sum) := by
      simp [further]
    have there : (List.range' peer.localStart before.sum ++ List.range' ctx.begin (nrBlocks :: after).sum)[before.sum]? =
        some ctx.begin := by
      rw [getElem?_append_right (by simp),length_range',Nat.sub_self,getElem?_range' (by omega),Nat.mul_zero,add_zero]
    obtain ⟨tail,split⟩ := sent
    rw [← split,getElem?_append_left (by simpa using further),here] at there
    have equal := Option.some.inj there
    omega

def syncedPeer (start nUnsync nUnsyncBlk : Nat) : Peer where
  localStart := start
  remoteStart := start
  remoteEnd := 0
  startDigest := start
  startVersion := 0
  availVersion := 0
  digesting := false
  nUnsync := nUnsync
  nUnsyncBlk := nUnsyncBlk
  nUsed := 0
  nUsedBlk := 0
  nPending := 0

def wrappedCtx : SyncCtx where
  begin := 616961
  size := 649728
  logEnd := 645632
  log := fun b => if b = 641536 ∨ b = 616961 then ⟨4097,lhCommitMagic⟩ else ⟨0,0⟩
  home := id

theorem loop_local {passes size left : Nat} (fits : session.localStart + size ≤ ctx.size)
    (looped : loop (fun pass => pass.2 == 0) (rsyncPass fuel ctx) passes (session,size) = some (last,left)) :
    last.localStart = session.localStart + size := by
  have step : ∀ pass next : Session × Nat, pass.1.localStart + pass.2 = session.localStart + size →
      (pass.2 == 0) = false → True → rsyncPass fuel ctx pass = some next →
      next.1.localStart + next.2 = session.localStart + size := by
    intro ⟨one,more⟩ ⟨two,less⟩ known _ _ passed
    dsimp only at known ⊢
    obtain ⟨_,remoteInterval,here,_,_,left,moved⟩ := rsyncPass_parts passed
    cases (nrBlksBeforeWrap_whole (known.le.trans fits)).symm.trans here
    rw [if_neg (by omega),moveLogPtr_whole (by omega)] at moved
    have place := Option.some.inj moved
    omega
  obtain ⟨kept,finished⟩ := loop_invariant _ step rfl (throughout_true _ _ _ _) looped
  have ended : left = 0 := by simpa using finished
  rwa [ended,add_zero] at kept

theorem local_start_in_advance {stored : Nat} (unsynced : Unsynced ctx peer.localStart sizes)
    (home : HeadersHome ctx peer.localStart sizes) (same : peer.remoteStart = peer.localStart) (all : peer.nUnsyncBlk = sizes.sum)
    (ptr : moveLogPtr fuel ctx (resetStart ctx peer.localStart) 0 peer.nUnsyncBlk = some stored)
    (generated : generateRsyncMsgs fuel ctx (firstSession ctx peer) = some last) : stored = last.localStart := by
  obtain ⟨⟨final,left⟩,looped,rfl⟩ := map_eq_some_iff.mp generated
  have finalized : (rdmaFinalize final).localStart = final.localStart := by
    unfold rdmaFinalize
    split <;> rfl
  rw [finalized]
  have low := unsynced.area
  -- everything behind the start fits, or the first pass ends at the wrap
  by_cases fits : resetStart ctx peer.localStart + peer.nUnsyncBlk ≤ ctx.size
  · rw [moveLogPtr_whole fits] at ptr
    cases ptr
    exact (loop_local fits looped).symm
  · rcases unsynced.cases home with ⟨_,_,whole,_⟩ | ⟨before,nrBlocks,after,rfl,_,_,wrapped,_⟩
    · unfold resetStart at fits
      split at fits <;> omega
    · have room := wrapped.room
      have rest := wrapped.rest
      have behind : (nrBlocks :: after).sum = nrBlocks + after.sum := sum_cons
      have total : peer.nUnsyncBlk = before.sum + (nrBlocks :: after).sum := by rw [all,sum_append]
      have stays : resetStart ctx peer.localStart = peer.localStart := by
        have marked := wrapped.marked
        unfold resetStart at fits ⊢
        split at fits
        · omega
        · rename_i kept
          exact if_neg kept
      rw [stays] at fits ptr
      rw [moveLogPtr,if_neg (by omega)] at ptr
      obtain ⟨counted,count,rfl⟩ := map_eq_some_iff.mp ptr
      rw [if_pos (by omega)]
      obtain ⟨spare,further⟩ := wrapped.counts (all ▸ count)
      have bounds := countTxs_range further
      have more : (peer.nUnsyncBlk == 0) = false := beq_false_of_ne (by omega)
      have local_ : (firstSession ctx peer).localStart = peer.localStart := stays
      have noLag : lag (firstSession ctx peer) = 0 := lag_same (local_.trans same.symm)
      cases fuel with
      | zero => simp [loop,firstSession,snapshot,more] at looped
      | succ fuel =>
        simp only [loop,firstSession,snapshot,more,Bool.false_eq_true,if_false] at looped
        obtain ⟨⟨next,size⟩,passed,later⟩ := bind_eq_some_iff.mp looped
        obtain ⟨here,there,hereCount,thereCount,_,left,moved⟩ := rsyncPass_parts passed
        change nrBlksBeforeWrap (fuel + 1) ctx (firstSession ctx peer).localStart 0 peer.nUnsyncBlk = _ at hereCount
        change nrBlksBeforeWrap (fuel + 1) ctx peer.remoteStart (lag (firstSession ctx peer)) peer.nUnsyncBlk = _ at thereCount
        rw [local_,count] at hereCount
        rw [same,noLag,count] at thereCount
        cases hereCount
        cases thereCount
        rw [min_self,if_pos ⟨rfl,by omega⟩] at moved
        have begins := Option.some.inj moved
        rw [loop_local (by omega) later,← begins,left,min_self]

def syncCtx (s : State) : SyncCtx := ⟨s.begin,s.size,s.logEnd,s.log,id⟩

end Assise.Replication
