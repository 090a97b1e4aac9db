import Assise.Extents
import Assise.LogRing
import Assise.MapTable

-- KernFS: the digest of log entries into files, and the write-back that ends a digest request.
-- `none` stands for a failed assertion or a panic.
namespace Assise.Digest

open Balloc Extents MapTable Lib.Runs
open LogRing (gLogSize)

-- The bytes of the NVM device, by physical block and offset. The block map table lies in blocks of
-- its own and is kept beside them.
abbrev Disk := Nat → Nat → UInt8

inductive FileType where
  | dir
  | file
  | dev
deriving DecidableEq, Repr

-- An inode without a type is free; its root is the empty one `mlfs_ext_tree_init` makes.
structure Inode where
  itype : Option FileType
  size : Nat
  root : ExtRoot

def emptyRoot : ExtRoot := ⟨0,leafNode []⟩

-- `inodes` is the inode cache in front of the on-disk inodes, by inode number. The logs of `logs`
-- LibFS processes lie one after the other from block `logStart` on. `map` is the table as a function: the 32-bit
-- addresses of its entries do not wrap.
structure KernFs where
  sb : SuperBlock
  inodes : List Inode
  map : Table
  disk : Disk
  logStart : Nat
  logs : Nat

-- One entry of a log header, with its block number counted from the start of the device. The four kinds of data entries
-- (`L_TYPE_DIR_ADD`, `_DIR_RENAME`, `_DIR_DEL`, `_FILE`) are handled alike.
inductive LogEntry where
  | inode (inum : Nat) (itype : Option FileType) (size : Nat)
  | file (inum offset length blknr : Nat)
  | unlink (inum : Nat)
  | alloc (inum length : Nat)
deriving DecidableEq, Repr

def KernFs.getBlocks (fs : KernFs) (inum mLblk mLen : Nat) : Option (MapResult × KernFs) := do
  let inode ← fs.inodes[inum]?
  let (map,root,sb) ← mlfsExtGetBlocks inode.root fs.sb (mLblk % 2 ^ 32) mLen true
  some (map,{fs with sb := sb,inodes := fs.inodes.set inum {inode with root := root}})

def KernFs.truncate (fs : KernFs) (inum start stop : Nat) : Option KernFs := do
  let inode ← fs.inodes[inum]?
  let (root,sb) ← mlfsExtTruncate inode.root (start % 2 ^ 32) (stop % 2 ^ 32) fs.sb
  some {fs with sb := sb,inodes := fs.inodes.set inum {inode with root := root}}

def copyBytes (disk : Disk) (src dst offset size : Nat) : Disk := fun b o =>
  if b = dst ∧ offset ≤ o ∧ o < offset + size then disk src o else disk b o

def KernFs.copyBlock (fs : KernFs) (libfsLblk kernfsLblk offset size : Nat) : Option KernFs :=
  let kernfs := lblk2pblk table fs.map kernfsLblk
  let libfs := lblk2pblk table kernfs.2 libfsLblk
  if size = 0 then none
  else some {fs with map := libfs.2,disk := copyBytes fs.disk libfs.1 kernfs.1 offset size}

def updateMapTables (map : Table) (kernfsLblk libfsLblk : Nat) : Nat → Table
  | 0 => map
  | count + 1 =>
    updateMapTable table (updateMapTables map kernfsLblk libfsLblk count) (kernfsLblk + count) (libfsLblk + count)

structure Digesting where
  fs : KernFs
  curOffset : Nat
  data : Nat
  length2allocate : Nat
  nrDigestedBlocks : Nat

-- Case 1: a single block, or the head of an entry that starts inside a block.
def digestHead (inum offset length : Nat) (at_ : Digesting) : Option Digesting := do
  let offsetInBlock := offset % gBlockSizeBytes
  let len := min length (gBlockSizeBytes - offsetInBlock)
  let (map,fs) ← at_.fs.getBlocks inum (at_.curOffset / gBlockSizeBytes) 1
  if map.ret = 1 then
    let fs ← fs.copyBlock (at_.data / gBlockSizeBytes) map.mPblk offsetInBlock len
    some ⟨fs,at_.curOffset + len,at_.data + len,at_.length2allocate - len,at_.nrDigestedBlocks + 1⟩
  else none

-- The last block of a pass is copied if the entry ends in it.
def KernFs.digestLast (fs : KernFs) (length2allocate nrBlockGet kernfsLblk libfsLblk : Nat) : Option KernFs :=
  if length2allocate < nrBlockGet * gBlockSizeBytes then
    fs.copyBlock libfsLblk kernfsLblk 0 (length2allocate - (nrBlockGet - 1) * gBlockSizeBytes)
  else some {fs with map := updateMapTable table fs.map kernfsLblk libfsLblk}

def digestRun (inum nrBlocks logEnd : Nat) (at_ : Digesting) : Option Digesting := do
  if at_.curOffset % gBlockSizeBytes ≠ 0 then none
  else
    let (map,fs) ← at_.fs.getBlocks inum (at_.curOffset / gBlockSizeBytes) (nrBlocks - at_.nrDigestedBlocks)
    if map.mPblk = 0 ∨ nrBlocks - at_.nrDigestedBlocks < map.ret ∨ map.ret = 0 then none
    else
      let libfsLblk := at_.data / gBlockSizeBytes
      let idx := map.ret - 1
      if logEnd ≤ libfsLblk + idx then none
      else
        let fs := {fs with map := updateMapTables fs.map map.mPblk libfsLblk idx}
        let fs ← fs.digestLast at_.length2allocate map.ret (map.mPblk + idx) (libfsLblk + idx)
        some ⟨fs,at_.curOffset + map.ret * gBlockSizeBytes,at_.data + map.ret * gBlockSizeBytes,
          at_.length2allocate - map.ret * gBlockSizeBytes,at_.nrDigestedBlocks + map.ret⟩

def nrBlocksOf (length : Nat) : Nat :=
  if length < gBlockSizeBytes then 1
  else length / gBlockSizeBytes + if length % gBlockSizeBytes ≠ 0 then 1 else 0

def digestFinished (nrBlocks : Nat) (at_ : Digesting) : Bool := decide (nrBlocks ≤ at_.nrDigestedBlocks)

-- Each pass digests a block, so the loop needs no more passes than there are blocks.
def digestRuns (inum nrBlocks logEnd : Nat) (at_ : Digesting) : Option Digesting :=
  loop (digestFinished nrBlocks) (digestRun inum nrBlocks logEnd) nrBlocks at_

def KernFs.logEnd (fs : KernFs) (libfsId : Nat) : Nat := fs.logStart + (libfsId + 1) * gLogSize

-- The state case 1 starts from. An inode without a type has no extent header and is refused.
def KernFs.openFile (fs : KernFs) (inum offset length blknr : Nat) : Option Digesting := do
  let inode ← fs.inodes[inum]?
  if inode.itype = none then none
  else
    let fs := {fs with inodes := fs.inodes.set inum {inode with size := max inode.size (offset + length)}}
    some ⟨fs,offset,blknr * gBlockSizeBytes,length,0⟩

def digestFirst (inum offset length : Nat) (at_ : Digesting) : Option Digesting :=
  if length < gBlockSizeBytes ∨ offset % gBlockSizeBytes ≠ 0 then digestHead inum offset length at_ else some at_

def digestFile (fs : KernFs) (libfsId inum offset length blknr : Nat) : Option KernFs := do
  let at_ ← fs.openFile inum offset length blknr
  let at_ ← digestFirst inum offset length at_
  let at_ ← digestRuns inum (nrBlocksOf length) (fs.logEnd libfsId) at_
  some at_.fs

def KernFs.shorten (fs : KernFs) (inum size : Nat) (inode : Inode) : Option KernFs :=
  if inode.itype = some .file ∧ size < inode.size then
    fs.truncate inum (size / gBlockSizeBytes + if size % gBlockSizeBytes ≠ 0 then 1 else 0)
      (inode.size / gBlockSizeBytes)
  else some fs

def Inode.occupy (inode : Inode) (itype : Option FileType) : Inode :=
  if inode.itype = none then {inode with itype := itype,root := emptyRoot} else inode

def digestInode (fs : KernFs) (inum : Nat) (itype : Option FileType) (size : Nat) : Option KernFs := do
  let inode ← fs.inodes[inum]?
  let inode := inode.occupy itype
  let fs := {fs with inodes := fs.inodes.set inum inode}
  let fs ← fs.shorten inum size inode
  let inode ← fs.inodes[inum]?
  some {fs with inodes := fs.inodes.set inum {inode with size := size}}

-- Block `size >> 12` is not among the blocks returned, unless it is block 0. Block numbers have 32 bits.
def KernFs.release (fs : KernFs) (inum : Nat) (inode : Inode) : Option KernFs :=
  let stop := inode.size / gBlockSizeBytes % 2 ^ 32
  if 0 < inode.size then fs.truncate inum 0 (if stop = 0 then stop else stop - 1) else some fs

def digestUnlink (fs : KernFs) (inum : Nat) : Option KernFs := do
  let inode ← fs.inodes[inum]?
  let fs ← fs.release inum inode
  some {fs with inodes := fs.inodes.set inum ⟨none,0,emptyRoot⟩}

def allocSize : Nat := 32768

structure Allocating where
  fs : KernFs
  blkAlloced : Nat
  firstPblk : Nat

-- The calls must return one contiguous piece of the device.
def allocateRun (inum blkLength : Nat) (at_ : Allocating) : Option Allocating := do
  let (map,fs) ← at_.fs.getBlocks inum at_.blkAlloced (min allocSize (blkLength - at_.blkAlloced))
  if map.ret = 0 then none
  else if at_.blkAlloced % 2 ^ 32 = 0 then some ⟨fs,at_.blkAlloced + map.ret,map.mPblk⟩
  else if map.mPblk ≠ at_.firstPblk + at_.blkAlloced then none
  else some ⟨fs,at_.blkAlloced + map.ret,at_.firstPblk⟩

def allocateFinished (blkLength : Nat) (at_ : Allocating) : Bool := decide (blkLength ≤ at_.blkAlloced)

def allocateLength (length : Nat) : Nat :=
  length / gBlockSizeBytes + if length % gBlockSizeBytes ≠ 0 then 1 else 0

def digestAllocate (fs : KernFs) (inum length : Nat) : Option KernFs := do
  let inode ← fs.inodes[inum]?
  if inode.itype = none ∨ length ≤ inode.size then none
  else
    let blkLength := allocateLength length
    let at_ ← loop (allocateFinished blkLength) (allocateRun inum blkLength) blkLength ⟨fs,0,0⟩
    some at_.fs

def digestEntry (fs : KernFs) (libfsId : Nat) : LogEntry → Option KernFs
  | .inode inum itype size => digestInode fs inum itype size
  | .file inum offset length blknr => digestFile fs libfsId inum offset length blknr
  | .unlink inum => digestUnlink fs inum
  | .alloc inum length => digestAllocate fs inum length

-- The bytes of a dirty tree buffer: a node starts with `MLFS_EXT_MAGIC`, 0xf30a in little-endian.
def bufferByte (rest : Disk) (b o : Nat) : UInt8 := if o = 0 then 0x0a else if o = 1 then 0xf3 else rest b o

-- Each buffer of the writeback list is written at its own block number, without the map table. One that is still
-- referenced stays on the list.
def syncAllBuffers (fs : KernFs) (rest : Disk) (referenced : List Nat) : KernFs :=
  { fs with
    disk := fun b o => if b ∈ fs.sb.bdBhDirty ∧ o < gBlockSizeBytes then bufferByte rest b o else fs.disk b o
    sb := {fs.sb with bdBhDirty := fs.sb.bdBhDirty.filter (· ∈ referenced)} }

-- `persist_log_file` and the header writes: LibFS puts bytes into a log block at its current home.
def logWrite (fs : KernFs) (blk offset size : Nat) (bytes : Nat → UInt8) : KernFs :=
  let log := lblk2pblk table fs.map blk
  { fs with
    map := log.2
    disk := fun b o => if b = log.1 ∧ offset ≤ o ∧ o < offset + size then bytes o else fs.disk b o }

def KernFs.OwnLog (fs : KernFs) (libfsId blk : Nat) : Prop :=
  libfsId < fs.logs ∧ fs.logStart + libfsId * gLogSize ≤ blk ∧ blk < fs.logEnd libfsId

instance (fs : KernFs) (libfsId blk : Nat) : Decidable (fs.OwnLog libfsId blk) := by
  unfold KernFs.OwnLog
  infer_instance

theorem KernFs.OwnLog.ends {fs : KernFs} {libfsId blk : Nat} (own : fs.OwnLog libfsId blk) :
    fs.logEnd libfsId ≤ fs.logStart + fs.logs * gLogSize :=
  Nat.add_le_add_left (Nat.mul_le_mul_right gLogSize own.1) _

def LogEntry.FromLog (fs : KernFs) (libfsId : Nat) : LogEntry → Prop
  | .file _ _ _ blknr => fs.OwnLog libfsId blknr
  | .inode .. | .unlink _ | .alloc .. => True

instance (fs : KernFs) (libfsId : Nat) (entry : LogEntry) : Decidable (entry.FromLog fs libfsId) := by
  cases entry <;> (unfold LogEntry.FromLog; infer_instance)

inductive Action where
  | write (libfsId blk offset size : Nat) (bytes : Nat → UInt8)
  | digest (libfsId : Nat) (entry : LogEntry)
  | flush (rest : Disk) (referenced : List Nat)

def step (fs : KernFs) : Action → Option KernFs
  | .write libfsId blk offset size bytes =>
    if fs.OwnLog libfsId blk then some (logWrite fs blk offset size bytes) else none
  | .digest libfsId entry => if entry.FromLog fs libfsId then digestEntry fs libfsId entry else none
  | .flush rest referenced => some (syncAllBuffers fs rest referenced)

end Assise.Digest
