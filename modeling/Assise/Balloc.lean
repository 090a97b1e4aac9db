import Assise.Bitmap
import Assise.Lib.Spans
import Mathlib.Logic.Relation

-- The block allocator: free ranges per partition and the block bitmap. `none` stands for an error return, a failed
-- assertion or a panic.
namespace Assise.Balloc

open Bitmap Lib.Spans

structure RangeNode where
  rangeLow : Nat
  rangeHigh : Nat
deriving DecidableEq, Repr

def RangeNode.size (n : RangeNode) : Nat := n.rangeHigh + 1 - n.rangeLow

-- `blockFreeTree` lists the nodes of the red-black tree in key order; `firstNode` is the key
-- (`range_low`) of the node the pointer names.
structure FreeList where
  blockFreeTree : List RangeNode
  firstNode : Option Nat
  numBlocknode : Nat
  numFreeBlocks : Nat
deriving DecidableEq, Repr

inductive AllocType where
  | data
  | dataLog
  | tree
deriving DecidableEq, Repr

-- `freeLists` has one list for each of the `n_partition` partitions. `bdBhDirty` is the writeback
-- list of the device's buffers, by block number.
structure SuperBlock where
  freeLists : List FreeList
  sharedFreeList : FreeList
  perListBlocks : Nat
  numBlocks : Nat
  reservedBlocks : Nat
  sBlkBitmap : BlockBitmap
  usedBlocks : Nat
  bdBhDirty : List Nat

def firstFit (num : Nat) : List RangeNode → Option (List RangeNode × RangeNode × List RangeNode)
  | [] => none
  | curr :: rest =>
    if curr.size < num then
      (firstFit num rest).map fun (small,found,after) => (curr :: small,found,after)
    else some ([],curr,rest)

-- A tree request starts at `rb_last`, a data request at `first_node`; both go on by `rb_next`.
def scanStart (fl : FreeList) : AllocType → List RangeNode × List RangeNode
  | .tree => (fl.blockFreeTree.dropLast,fl.blockFreeTree.getLast?.toList)
  | _ =>
    match fl.firstNode with
    | none => (fl.blockFreeTree,[])
    | some low => (fl.blockFreeTree.takeWhile (·.rangeLow != low),
        fl.blockFreeTree.dropWhile (·.rangeLow != low))

-- `num_free_blocks` is lowered whether or not a node was found.
def mlfsAllocBlocksInFreeList (fl : FreeList) (atype : AllocType) (num : Nat) : Option Nat × FreeList :=
  let (skipped,visited) := scanStart fl atype
  match firstFit num visited with
  | none => (none,{fl with numFreeBlocks := fl.numFreeBlocks - num})
  | some (small,curr,rest) =>
    let before := skipped ++ small
    if num = curr.size then
      (some curr.rangeLow,
        { blockFreeTree := before ++ rest
          firstNode := if fl.firstNode = some curr.rangeLow then rest.head?.map (·.rangeLow) else fl.firstNode
          numBlocknode := fl.numBlocknode - 1
          numFreeBlocks := fl.numFreeBlocks - num })
    else match atype with
      | .tree =>
        (some curr.rangeHigh,
          { fl with
            blockFreeTree := before ++ ⟨curr.rangeLow,curr.rangeHigh - num⟩ :: rest
            numFreeBlocks := fl.numFreeBlocks - num })
      | _ =>
        (some curr.rangeLow,
          { fl with
            blockFreeTree := before ++ ⟨curr.rangeLow + num,curr.rangeHigh⟩ :: rest
            firstNode := if fl.firstNode = some curr.rangeLow then some (curr.rangeLow + num) else fl.firstNode
            numFreeBlocks := fl.numFreeBlocks - num })

def mlfsFindFreeList (sb : SuperBlock) (num : Nat) : Option Nat :=
  sb.freeLists.findIdx? fun fl => decide (num < fl.numFreeBlocks)

def findFirstNode (fl : FreeList) : FreeList :=
  if fl.firstNode = none then {fl with firstNode := fl.blockFreeTree.head?.map (·.rangeLow)} else fl

-- The list found has more than `num` free blocks, so the retry of the source is not taken; a block
-- number 0 counts as a failure.
def mlfsNewBlocks (sb : SuperBlock) (num : Nat) (atype : AllocType) : Option Nat × SuperBlock :=
  if num = 0 then (none,sb) else
  match mlfsFindFreeList sb num with
  | none => (none,sb)
  | some id =>
    match sb.freeLists[id]? with
    | none => (none,sb)
    | some fl =>
      let result := mlfsAllocBlocksInFreeList (findFirstNode fl) atype num
      (result.1.filter (· ≠ 0),{sb with freeLists := sb.freeLists.set id result.2})

-- The nodes below a range to be freed (nearest first) and those above. A node that holds `low`, or a next node inside
-- the range, is refused; the search in the tree may miss the latter.
def mlfsFindFreeSlot (low high : Nat) (passed : List RangeNode) :
    List RangeNode → Option (List RangeNode × List RangeNode)
  | [] => some (passed,[])
  | node :: rest =>
    if node.rangeHigh < low then mlfsFindFreeSlot low high (node :: passed) rest
    else if high < node.rangeLow then some (passed,node :: rest)
    else none

def insertRange (fl : FreeList) (low high : Nat) : List RangeNode → List RangeNode → FreeList
  | prev :: earlier,next :: later =>
    if low = prev.rangeHigh + 1 ∧ high + 1 = next.rangeLow then
      { fl with
        blockFreeTree := earlier.reverse ++ ⟨prev.rangeLow,next.rangeHigh⟩ :: later
        numBlocknode := fl.numBlocknode - 1 }
    else if low = prev.rangeHigh + 1 then
      {fl with blockFreeTree := earlier.reverse ++ ⟨prev.rangeLow,high⟩ :: next :: later}
    else if high + 1 = next.rangeLow then
      { fl with
        blockFreeTree := (prev :: earlier).reverse ++ ⟨low,next.rangeHigh⟩ :: later
        firstNode := if fl.firstNode = some next.rangeLow then some low else fl.firstNode }
    else
      { fl with
        blockFreeTree := (prev :: earlier).reverse ++ ⟨low,high⟩ :: next :: later
        numBlocknode := fl.numBlocknode + 1 }
  | prev :: earlier,[] =>
    if low = prev.rangeHigh + 1 then
      {fl with blockFreeTree := earlier.reverse ++ [⟨prev.rangeLow,high⟩]}
    else
      { fl with
        blockFreeTree := (prev :: earlier).reverse ++ [⟨low,high⟩]
        numBlocknode := fl.numBlocknode + 1 }
  | [],next :: later =>
    if high + 1 = next.rangeLow then
      { fl with
        blockFreeTree := ⟨low,next.rangeHigh⟩ :: later
        firstNode := if fl.firstNode = some next.rangeLow then some low else fl.firstNode }
    else
      { fl with
        blockFreeTree := ⟨low,high⟩ :: next :: later
        firstNode := some low
        numBlocknode := fl.numBlocknode + 1 }
  | [],[] =>
    { fl with
      blockFreeTree := [⟨low,high⟩]
      firstNode := some low
      numBlocknode := fl.numBlocknode + 1 }

def freeInList (fl : FreeList) (blocknr num : Nat) : Option FreeList :=
  match mlfsFindFreeSlot blocknr (blocknr + num - 1) [] fl.blockFreeTree with
  | none => none
  | some (below,above) =>
    let fl := insertRange fl blocknr (blocknr + num - 1) below above
    some {fl with numFreeBlocks := fl.numFreeBlocks + num}

-- A block behind the last partition goes to the shared list. There are fewer partitions than `SHARED_PARTITION` (65536).
def mlfsFreeBlocksNode (sb : SuperBlock) (blocknr num : Nat) : Option SuperBlock :=
  if num = 0 then none else
  let id := blocknr / sb.perListBlocks
  match sb.freeLists[id]? with
  | some fl => (freeInList fl blocknr num).map fun fl => {sb with freeLists := sb.freeLists.set id fl}
  | none => (freeInList sb.sharedFreeList blocknr num).map fun fl => {sb with sharedFreeList := fl}

-- `mlfs_ext_alloc_blocks`: up to three tries, the third failure panics.
def allocTries (atype : AllocType) (count : Nat) : Nat → SuperBlock → Option (Nat × SuperBlock)
  | 0,_ => none
  | tries + 1,sb =>
    match mlfsNewBlocks sb count atype with
    | (some blockp,sb) =>
      some (blockp,
        { sb with
          sBlkBitmap := bitmapBitsSetRange sb.sBlkBitmap blockp count
          usedBlocks := sb.usedBlocks + count })
    | (none,sb) => allocTries atype count tries sb

def mlfsExtAllocBlocks (sb : SuperBlock) (atype : AllocType) (count : Nat) : Option (Nat × SuperBlock) :=
  allocTries atype count 3 sb

-- The test against the writeback list is compiled out, so the list is not looked at.
def mlfsFreeBlocks (sb : SuperBlock) (block count : Nat) : Option SuperBlock :=
  match mlfsFreeBlocksNode sb block count with
  | none => none
  | some sb =>
    if count < sb.usedBlocks then
      some { sb with
        sBlkBitmap := bitmapBitsFree sb.sBlkBitmap block count
        usedBlocks := sb.usedBlocks - count }
    else none

def markBufferDirty (sb : SuperBlock) (block : Nat) : SuperBlock :=
  if block ∈ sb.bdBhDirty then sb else {sb with bdBhDirty := sb.bdBhDirty ++ [block]}

-- `mlfs_init_blockmap` with `initialize` set and the single partition `read_superblock` asks for,
-- over a bitmap that has the reserved blocks set.
def initSuperBlock (numBlocks reservedBlocks : Nat) : SuperBlock where
  freeLists := [⟨[⟨reservedBlocks,numBlocks - 1⟩],some reservedBlocks,1,numBlocks - reservedBlocks⟩]
  sharedFreeList := ⟨[],none,0,0⟩
  perListBlocks := numBlocks
  numBlocks := numBlocks
  reservedBlocks := reservedBlocks
  sBlkBitmap := ⟨fun i => decide (i < reservedBlocks),fun _ => false⟩
  usedBlocks := reservedBlocks
  bdBhDirty := []

end Assise.Balloc
