import Mathlib.Algebra.Ring.Nat
import Assise.Lib.Runs
import Assise.Lib.Segments

-- The update log of one LibFS process: a ring of blocks that `log_alloc` hands out and KernFS digests from the other
-- end. One thread commits; a digest runs concurrently.
namespace Assise.LogRing
open Lib.Runs Lib.Segments

def gLogSize : Nat := 32768
def lhCommitMagic : Nat := 0x1FB9

-- The fields of a log header block that the ring reads. In a data block they are whatever its bytes happen to be.
structure Loghdr where
  nrLogBlocks : Nat
  inuse : Nat
deriving DecidableEq, Repr

abbrev LogArea := Nat → Loghdr

abbrev Tx := Segment

structure DigestRequest where
  nHdrs : Nat
  startDigest : Nat
  startBlkno : Nat
  endBlkno : Nat
deriving DecidableEq, Repr

structure DigestAnswer where
  nDigested : Nat
  nextHdr : Nat
  rotated : Bool
  visited : List Nat
deriving DecidableEq, Repr

def nextLoghdrBlknr (current size start last : Nat) : Nat :=
  if current + size - 1 = last then start else current + size

-- What the blocks of a transaction hold after its digest: its data blocks were swapped away, so their contents are
-- arbitrary.
def digestEachLogEntries (contents : LogArea) (tx : Tx) (log : LogArea) : LogArea :=
  fun b => if tx.first < b ∧ b < tx.stop then contents b else log b

-- `digest_logs` from header `current` on, with the log area it leaves and the headers it visited. A header that is not
-- in use ends the walk; any other value of the field stops KernFS.
def digestLogs (contents : LogArea) (startBlkno endBlkno : Nat) : Nat → LogArea → Nat → Option (LogArea × DigestAnswer)
  | 0,log,current => some (log,⟨0,current,false,[]⟩)
  | n + 1,log,current =>
    let hdr := log current
    if hdr.inuse = lhCommitMagic then
      let next := nextLoghdrBlknr current hdr.nrLogBlocks startBlkno endBlkno
      let digested := digestEachLogEntries contents ⟨current,hdr.nrLogBlocks⟩ log
      (digestLogs contents startBlkno endBlkno n digested next).map fun (area,rest) =>
        (area,⟨rest.nDigested + 1,rest.nextHdr,decide (next < current) || rest.rotated,current :: rest.visited⟩)
    else if hdr.inuse = 0 then some (log,⟨0,current,false,[]⟩)
    else none

-- Where the committing thread is: in `log_alloc` before its lock, in its retry loop (before the first test, waiting
-- for a digest, before the second test), or before the header is written.
inductive Phase where
  | idle
  | entered (nrBlocks : Nat)
  | reserved (hdr nrBlocks : Nat)
  | waiting (hdr nrBlocks : Nat)
  | tested (hdr nrBlocks : Nat)
  | allocated (hdr nrBlocks : Nat)
deriving DecidableEq, Repr

-- `digesting` is set from the sending of a request to the handling of its response.
inductive Digest where
  | idle
  | sent (request : DigestRequest)
  | done (answer : DigestAnswer)
deriving DecidableEq, Repr

-- `logEnd` is the field `end` of the log superblock; `undigested` lists the
-- committed transactions that no handled response covers yet, oldest first.
structure State where
  logSbBlk : Nat
  startBlk : Nat
  nextAvailHeader : Nat
  startVersion : Nat
  availVersion : Nat
  nDigestReq : Nat
  startDigest : Nat
  nDigest : Nat
  logEnd : Nat
  log : LogArea
  undigested : List Tx
  phase : Phase
  digest : Digest

def State.size (s : State) : Nat := s.logSbBlk + gLogSize
def State.begin (s : State) : Nat := s.logSbBlk + 1

def initLog (logSbBlk : Nat) (log : LogArea) : State where
  logSbBlk := logSbBlk
  startBlk := logSbBlk + 1
  nextAvailHeader := logSbBlk + 1
  startVersion := 0
  availVersion := 0
  nDigestReq := 0
  startDigest := logSbBlk + 1
  nDigest := 0
  logEnd := 0
  log := log
  undigested := []
  phase := .idle
  digest := .idle

-- The head is moved over a wrap-around it has just reached. `logEnd` stays.
def moveHead (s : State) : State :=
  if s.logEnd ≠ 0 ∧ s.logEnd < s.startBlk then
    { s with startBlk := s.begin,startVersion := (s.startVersion + 1) % 2 ^ 32 }
  else s

def makeDigestRequestSync (percent : Nat) (s : State) : State :=
  let s := moveHead s
  let nDigestReq := percent * s.nDigest % 2 ^ 32 / 100
  { s with
    startDigest := s.startBlk
    nDigestReq := nDigestReq
    digest := .sent ⟨nDigestReq,s.startBlk,s.begin,s.logEnd⟩ }

-- Every caller loops until -EBUSY, the answer to the second call: the first has set `digesting`, and the response of
-- a full digest leaves nothing to digest.
def makeDigestRequestAsync (s : State) : State :=
  if s.digest = .idle ∧ 0 < s.nDigest then makeDigestRequestSync 100 s else s

def nrUsedBlk (s : State) : Nat :=
  if s.availVersion = s.startVersion then s.nextAvailHeader - s.startBlk
  else s.size - s.startBlk + (s.nextAvailHeader - s.logSbBlk)

def aboveThreshold (threshold : Nat) (s : State) : Bool :=
  decide (s.digest = .idle ∧ threshold * gLogSize / 100 < nrUsedBlk s)

def wrapTail (nrBlocks : Nat) (s : State) : State :=
  if s.size < s.nextAvailHeader + nrBlocks then
    { s with
      logEnd := s.nextAvailHeader - 1
      nextAvailHeader := s.begin
      availVersion := (s.availVersion + 1) % 2 ^ 32 }
  else s

def reserveBlocks (nrBlocks : Nat) (s : State) : State :=
  let s := wrapTail nrBlocks s
  { s with
    nextAvailHeader := s.nextAvailHeader + nrBlocks
    phase := .reserved s.nextAvailHeader nrBlocks }

def lowSpace (s : State) : Bool :=
  decide (s.startVersion < s.availVersion ∧
    (s.startBlk + (2 ^ 64 - s.nextAvailHeader % 2 ^ 64)) % 2 ^ 64 < gLogSize / 5)

def tailPastHead (s : State) : Bool :=
  decide (s.startVersion < s.availVersion ∧ s.startBlk < s.nextAvailHeader)

-- `commit_log` after `log_alloc`: the data blocks, then the header, whose size field has 16 bits.
def commitLog (contents : LogArea) (hdr nrBlocks : Nat) (s : State) : State :=
  { s with
    log := fun b =>
      if b = hdr then ⟨nrBlocks % 2 ^ 16,lhCommitMagic⟩
      else if hdr < b ∧ b < hdr + nrBlocks then contents b else s.log b
    undigested := s.undigested ++ [⟨hdr,nrBlocks⟩]
    nDigest := (s.nDigest + 1) % 2 ^ 32
    phase := .idle }

-- A response for fewer headers than requested stops LibFS.
def handleDigestResponse (answer : DigestAnswer) (s : State) : Option State :=
  if s.nDigestReq = answer.nDigested then
    let s :=
      if answer.rotated then
        let startVersion := (s.startVersion + 1) % 2 ^ 32
        { s with
          startVersion := startVersion
          logEnd := if startVersion = s.availVersion then 0 else s.logEnd }
      else s
    some { s with
      startBlk := answer.nextHdr
      startDigest := answer.nextHdr
      nDigest := (s.nDigest + 2 ^ 32 - answer.nDigested % 2 ^ 32) % 2 ^ 32
      undigested := s.undigested.filter fun tx => decide (tx.first ∉ answer.visited)
      digest := .idle }
  else none

-- `enter` and the steps after it are one `commit_log`; a transaction takes one block more than its data. `kernfs` and
-- `respond` are the digest and its response.
inductive Action where
  | request
  | enter (blocks : Nat)
  | reserve
  | check
  | waited
  | recheck
  | commit (contents : LogArea)
  | kernfs (contents : LogArea)
  | respond

def step (threshold : Nat) (s : State) : Action → Option State
  | .request => some (makeDigestRequestAsync s)
  | .enter blocks =>
    match s.phase with
    | .idle =>
      -- mlfs_assert on the tail of an unwrapped log
      if s.digest = .idle ∧ s.availVersion = s.startVersion ∧ s.nextAvailHeader < s.startBlk then none
      else
        let s := if aboveThreshold threshold s then makeDigestRequestAsync s else s
        some { s with phase := .entered (blocks + 1) }
    | _ => none
  | .reserve =>
    match s.phase with
    | .entered nrBlocks => some (reserveBlocks nrBlocks s)
    | _ => none
  | .check =>
    match s.phase with
    | .reserved hdr nrBlocks =>
      if lowSpace s then some { makeDigestRequestAsync s with phase := .waiting hdr nrBlocks }
      else some { s with phase := .tested hdr nrBlocks }
    | _ => none
  | .waited =>
    match s.phase with
    | .waiting hdr nrBlocks =>
      if s.digest = .idle then some { s with phase := .tested hdr nrBlocks } else none
    | _ => none
  | .recheck =>
    match s.phase with
    | .tested hdr nrBlocks =>
      if tailPastHead s then some { s with phase := .reserved hdr nrBlocks }
      else some { s with phase := .allocated hdr nrBlocks }
    | _ => none
  | .commit contents =>
    match s.phase with
    | .allocated hdr nrBlocks => some (commitLog contents hdr nrBlocks s)
    | _ => none
  | .kernfs contents =>
    match s.digest with
    | .sent request =>
      (digestLogs contents request.startBlkno request.endBlkno request.nHdrs s.log request.startDigest).map
        fun (area,answer) => { s with log := area,digest := .done answer }
    | _ => none
  | .respond =>
    match s.digest with
    | .done answer => handleDigestResponse answer s
    | _ => none

inductive Step (threshold : Nat) (s : State) : Action → State → Prop where
  | request : Step threshold s .request (makeDigestRequestAsync s)
  | enterFull {blocks : Nat} (idle : s.phase = .idle) (above : aboveThreshold threshold s = true) :
      Step threshold s (.enter blocks) { makeDigestRequestAsync s with phase := .entered (blocks + 1) }
  | enter {blocks : Nat} (idle : s.phase = .idle) :
      Step threshold s (.enter blocks) { s with phase := .entered (blocks + 1) }
  | reserve {nrBlocks : Nat} (phase : s.phase = .entered nrBlocks) :
      Step threshold s .reserve (reserveBlocks nrBlocks s)
  | checkLow {hdr nrBlocks : Nat} (phase : s.phase = .reserved hdr nrBlocks) (low : lowSpace s = true) :
      Step threshold s .check { makeDigestRequestAsync s with phase := .waiting hdr nrBlocks }
  | check {hdr nrBlocks : Nat} (phase : s.phase = .reserved hdr nrBlocks) :
      Step threshold s .check { s with phase := .tested hdr nrBlocks }
  | waited {hdr nrBlocks : Nat} (phase : s.phase = .waiting hdr nrBlocks) :
      Step threshold s .waited { s with phase := .tested hdr nrBlocks }
  | retry {hdr nrBlocks : Nat} (phase : s.phase = .tested hdr nrBlocks) :
      Step threshold s .recheck { s with phase := .reserved hdr nrBlocks }
  | recheck {hdr nrBlocks : Nat} (phase : s.phase = .tested hdr nrBlocks) (free : tailPastHead s = false) :
      Step threshold s .recheck { s with phase := .allocated hdr nrBlocks }
  | commit {contents : LogArea} {hdr nrBlocks : Nat} (phase : s.phase = .allocated hdr nrBlocks) :
      Step threshold s (.commit contents) (commitLog contents hdr nrBlocks s)
  | kernfs {contents area : LogArea} {request : DigestRequest} {answer : DigestAnswer} (sent : s.digest = .sent request)
      (walk : digestLogs contents request.startBlkno request.endBlkno request.nHdrs s.log request.startDigest =
        some (area,answer)) :
      Step threshold s (.kernfs contents) { s with log := area,digest := .done answer }
  | respond {answer : DigestAnswer} {next : State} (done : s.digest = .done answer)
      (handled : handleDigestResponse answer s = some next) : Step threshold s .respond next

theorem step_sound {threshold : Nat} {s next : State} {action : Action}
    (stepped : step threshold s action = some next) : Step threshold s action next := by
  cases action with
  | request => cases Option.some.inj stepped; exact .request
  | enter blocks =>
    simp only [step] at stepped
    split at stepped
    · rename_i idle
      split at stepped
      · cases stepped
      · cases Option.some.inj stepped
        split
        · rename_i above; exact .enterFull idle above
        · exact .enter idle
    · cases stepped
  | reserve =>
    simp only [step] at stepped
    split at stepped
    · rename_i phase; cases Option.some.inj stepped; exact .reserve phase
    · cases stepped
  | check =>
    simp only [step] at stepped
    split at stepped
    · rename_i phase
      split at stepped
      · rename_i low; cases Option.some.inj stepped; exact .checkLow phase low
      · cases Option.some.inj stepped; exact .check phase
    · cases stepped
  | waited =>
    simp only [step] at stepped
    split at stepped
    · rename_i phase
      split at stepped
      · cases Option.some.inj stepped; exact .waited phase
      · cases stepped
    · cases stepped
  | recheck =>
    simp only [step] at stepped
    split at stepped
    · rename_i phase
      split at stepped
      · cases Option.some.inj stepped; exact .retry phase
      · rename_i free; cases Option.some.inj stepped; exact .recheck phase (by simpa using free)
    · cases stepped
  | commit contents =>
    simp only [step] at stepped
    split at stepped
    · rename_i phase; cases Option.some.inj stepped; exact .commit phase
    · cases stepped
  | kernfs contents =>
    simp only [step] at stepped
    split at stepped
    · rename_i sent
      obtain ⟨⟨area,answer⟩,walk,rfl⟩ := Option.map_eq_some_iff.mp stepped
      exact .kernfs sent walk
    · cases stepped
  | respond =>
    simp only [step] at stepped
    split at stepped
    · rename_i done; exact .respond done stepped
    · cases stepped

end Assise.LogRing
