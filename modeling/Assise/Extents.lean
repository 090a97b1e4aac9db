import Assise.Balloc
import Assise.Lib.BinarySearch

-- The extent tree of an inode: lookup, insertion with splitting and growth, hole punching.
-- `none` stands for an error return, a failed assertion or a panic.
namespace Assise.Extents

open Balloc Lib.BinarySearch

-- Extents hold `ee_len ≤ EXT_INIT_MAX_LEN` blocks: no caller asks for unwritten ones.
structure Extent where
  eeBlock : Nat
  eeLen : Nat
  eeStart : Nat
deriving DecidableEq, Repr

structure ExtentIdx where
  eiBlock : Nat
  eiLeaf : Nat
deriving DecidableEq, Repr

def extMaxBlocks : Nat := 0xffffffff
def extInitMaxLen : Nat := 32768
def mlfsExtSpaceRoot : Nat := 4
def mlfsExtSpaceBlock : Nat := 340

-- A node of depth 0 is a leaf. An index entry stands with the node its block holds.
def Tree : Nat → Type
  | 0 => List Extent
  | depth + 1 => List (ExtentIdx × Tree depth)

abbrev leafNode (es : List Extent) : Tree 0 := es
abbrev indexNode {d : Nat} (entries : List (ExtentIdx × Tree d)) : Tree (d + 1) := entries
abbrev leafOf (node : Tree 0) : List Extent := node
abbrev entriesOf {d : Nat} (node : Tree (d + 1)) : List (ExtentIdx × Tree d) := node

structure ExtRoot where
  ehDepth : Nat
  node : Tree ehDepth

-- A place in a tree of depth `top`, at depth `d`: the levels of a `mlfs_ext_path` array up to the root, each with the
-- entries beside the one the path goes through.
inductive ExtPath : Nat → Nat → Type where
  | root {top : Nat} : ExtPath top top
  | under {d top : Nat} (left : List (ExtentIdx × Tree d)) (pIdx : ExtentIdx)
      (right : List (ExtentIdx × Tree d)) (up : ExtPath (d + 1) top) : ExtPath d top

def plug : {d top : Nat} → ExtPath d top → Tree d → Tree top
  | _,_,.root,node => node
  | _,_,.under left pIdx right up,node => plug up (indexNode (left ++ (pIdx,node) :: right))

def pBh : {d top : Nat} → ExtPath d top → Option Nat
  | _,_,.root => none
  | _,_,.under _ pIdx _ _ => some pIdx.eiLeaf

def ehMax : {d top : Nat} → ExtPath d top → Nat
  | _,_,.root => mlfsExtSpaceRoot
  | _,_,.under _ _ _ _ => mlfsExtSpaceBlock

def dirtyNode (block : Option Nat) (sb : SuperBlock) : SuperBlock :=
  match block with
  | some block => markBufferDirty sb block
  | none => sb

def mlfsExtDirty {d top : Nat} (path : ExtPath d top) (sb : SuperBlock) : SuperBlock :=
  dirtyNode (pBh path) sb

def keyAbove (keys : List Nat) (block i : Nat) : Bool :=
  match keys[i]? with
  | some key => decide (block < key)
  | none => true

def mlfsExtBinsearchIdx {d : Nat} (entries : List (ExtentIdx × Tree d)) (block : Nat) : Nat :=
  lastNotAbove (keyAbove (entries.map (·.1.eiBlock)) block) entries.length

def mlfsExtBinsearch (leaf : List Extent) (block : Nat) : Option Nat :=
  if leaf = [] then none
  else some (lastNotAbove (keyAbove (leaf.map (·.eeBlock)) block) leaf.length)

def descend (block : Nat) : {d top : Nat} → Tree d → ExtPath d top → Option (ExtPath 0 top × List Extent)
  | 0,_,leaf,path => some (path,leafOf leaf)
  | _ + 1,_,node,path =>
    let i := mlfsExtBinsearchIdx (entriesOf node) block
    match (entriesOf node)[i]? with
    | none => none
    | some (pIdx,child) =>
      descend block child (.under ((entriesOf node).take i) pIdx ((entriesOf node).drop (i + 1)) path)

structure Cursor (top : Nat) where
  path : ExtPath 0 top
  leaf : List Extent
  pExt : Option Nat

def mlfsFindExtent (root : ExtRoot) (block : Nat) : Option (Cursor root.ehDepth) :=
  (descend block root.node .root).map fun (path,leaf) => ⟨path,leaf,mlfsExtBinsearch leaf block⟩

def mlfsExtNextLeafBlock : {d top : Nat} → ExtPath d top → Nat
  | _,_,.root => extMaxBlocks
  | _,_,.under _ _ ((next,_) :: _) _ => next.eiBlock
  | _,_,.under _ _ [] up => mlfsExtNextLeafBlock up

def mlfsExtNextAllocatedBlock {top : Nat} (c : Cursor top) : Nat :=
  match c.pExt.bind fun i => c.leaf[i + 1]? with
  | some next => next.eeBlock
  | none => mlfsExtNextLeafBlock c.path

def mlfsCanExtentsBeMerged (ex1 ex2 : Extent) : Bool :=
  decide (ex1.eeBlock + ex1.eeLen = ex2.eeBlock) && decide (ex1.eeLen + ex2.eeLen ≤ extInitMaxLen) &&
    decide (ex1.eeStart + ex1.eeLen = ex2.eeStart)

def mergeRun (ex : Extent) : List Extent → Extent × List Extent
  | [] => (ex,[])
  | next :: rest =>
    if mlfsCanExtentsBeMerged ex next then mergeRun {ex with eeLen := ex.eeLen + next.eeLen} rest
    else (ex,next :: rest)

def mlfsExtTryToMergeRight (leaf : List Extent) (i : Nat) : List Extent × Bool :=
  match leaf.drop i with
  | [] => (leaf,false)
  | ex :: rest =>
    let merged := mergeRun ex rest
    (leaf.take i ++ merged.1 :: merged.2,decide (merged.2.length < rest.length))

def mlfsExtTryToMerge (leaf : List Extent) (near : Nat) : List Extent :=
  let left := if 0 < near then mlfsExtTryToMergeRight leaf (near - 1) else (leaf,false)
  if left.2 then left.1 else (mlfsExtTryToMergeRight left.1 near).1

-- The keys above a place whose first block changed, as far up as it is the first entry.
def correctKeys (border : Nat) : {d top : Nat} → ExtPath d top → SuperBlock → ExtPath d top × SuperBlock
  | _,_,.root,sb => (.root,sb)
  | _,_,.under [] pIdx right up,sb =>
    let above := correctKeys border up (mlfsExtDirty up sb)
    (.under [] {pIdx with eiBlock := border} right above.1,above.2)
  | _,_,.under (first :: left) pIdx right up,sb =>
    (.under (first :: left) {pIdx with eiBlock := border} right up,mlfsExtDirty up sb)

def mlfsExtCorrectIndexes {top : Nat} (path : ExtPath 0 top) (leaf : List Extent) (pExt : Nat)
    (sb : SuperBlock) : Option (ExtPath 0 top × SuperBlock) :=
  match pExt,leaf with
  | 0,first :: _ => some (correctKeys first.eeBlock path sb)
  | 0,[] => none
  | _ + 1,_ => some (path,sb)

def onlyLeaf : {top : Nat} → ExtPath 0 top → Option Nat
  | _,.under [] pIdx [] .root => some pIdx.eiLeaf
  | _,_ => none

def correctAndDirty {top : Nat} (path : ExtPath 0 top) (leaf : List Extent) (pExt : Nat)
    (sb : SuperBlock) : Option (ExtRoot × SuperBlock) := do
  let (path,sb) ← mlfsExtCorrectIndexes path leaf pExt sb
  some (⟨top,plug path (leafNode leaf)⟩,mlfsExtDirty path sb)

-- From the label `merge`: `mlfs_ext_try_to_merge` with its merge up, then the indexes above, unless the leaf has
-- moved into the inode.
def mergeAndCorrect {top : Nat} (path : ExtPath 0 top) (leaf : List Extent) (near pExt : Nat)
    (preIo : Bool) (sb : SuperBlock) : Option (ExtRoot × SuperBlock) :=
  if preIo then correctAndDirty path leaf pExt sb
  else
    let leaf := mlfsExtTryToMerge leaf near
    match onlyLeaf path with
    | some blk =>
      if leaf.length ≤ mlfsExtSpaceRoot then do
        let sb ← mlfsFreeBlocks sb blk 1
        some (⟨0,leafNode leaf⟩,sb)
      else correctAndDirty path leaf pExt sb
    | none => correctAndDirty path leaf pExt sb

-- From the label `has_space`: the new extent goes before or after `p_ext`.
def insertPosition {top : Nat} (c : Cursor top) (newext : Extent) : Option Nat :=
  match c.pExt with
  | none => some 0
  | some i => do
      let ex ← c.leaf[i]?
      if ex.eeBlock < newext.eeBlock then some (i + 1)
      else if newext.eeBlock = ex.eeBlock then none
      else some i

def insertAt {top : Nat} (c : Cursor top) (newext : Extent) (preIo : Bool) (sb : SuperBlock) :
    Option (ExtRoot × SuperBlock) := do
  let near ← insertPosition c newext
  mergeAndCorrect c.path (c.leaf.take near ++ newext :: c.leaf.drop near) near near preIo sb

def prependTo (leaf : List Extent) (newext : Extent) (j : Nat) : Option (List Extent × Nat) := do
  let ex ← leaf[j]?
  if mlfsCanExtentsBeMerged newext ex then
    some (leaf.set j ⟨newext.eeBlock,ex.eeLen + newext.eeLen,newext.eeStart⟩,j)
  else none

def extendExtent (leaf : List Extent) (i : Nat) (newext : Extent) : Option (List Extent × Nat) := do
  let ex ← leaf[i]?
  if i + 1 < leaf.length ∧ ex.eeBlock + ex.eeLen < newext.eeBlock then prependTo leaf newext (i + 1)
  else
    let j := if 0 < i ∧ newext.eeBlock + newext.eeLen < ex.eeBlock then i - 1 else i
    let ex ← leaf[j]?
    if mlfsCanExtentsBeMerged ex newext then
      some (leaf.set j {ex with eeLen := ex.eeLen + newext.eeLen},j)
    else prependTo leaf newext j

def mlfsNewMetaBlocks (sb : SuperBlock) : Option (Nat × SuperBlock) := mlfsExtAllocBlocks sb .tree 1

def allocNodes : Nat → SuperBlock → Option (List Nat × SuperBlock)
  | 0,sb => some ([],sb)
  | n + 1,sb => do
      let (block,sb) ← mlfsNewMetaBlocks sb
      let (blocks,sb) ← allocNodes n sb
      some (block :: blocks,sb)

def levelsToFreeIndex : {d top : Nat} → ExtPath d top → Option Nat
  | _,_,.root => none
  | _,_,.under left _ right up =>
    if left.length + 1 + right.length < ehMax up then some 0
    else (levelsToFreeIndex up).map (· + 1)

-- The loop of `mlfs_ext_split` over the levels: a full index node is split behind the path's entry, one with room gets
-- the new entry (`mlfs_ext_insert_index`).
def splitUp (border : Nat) : {d top : Nat} → ExtPath d top → Tree d → Nat → Tree d → List Nat → SuperBlock →
    Option (Tree top × SuperBlock)
  | _,_,.root,_,_,_,_,_ => none
  | d,_,.under left pIdx right up,old,newblock,new,ablocks,sb =>
    let added : ExtentIdx × Tree d := (⟨border,newblock⟩,new)
    if left.length + 1 + right.length < ehMax up then
      if border = pIdx.eiBlock then none
      else
        let entries := if pIdx.eiBlock < border then left ++ (pIdx,old) :: added :: right
          else left ++ added :: (pIdx,old) :: right
        some (plug up (indexNode entries),mlfsExtDirty up sb)
    else
      match ablocks with
      | [] => none
      | block :: rest =>
        let sb := markBufferDirty sb block
        let sb := if right = [] then sb else mlfsExtDirty up sb
        splitUp border up (indexNode (left ++ [(pIdx,old)])) block (indexNode (added :: right)) rest sb

-- The last block allocated becomes the new leaf, the one before it the index node above, and so on.
def mlfsExtSplit {top : Nat} (c : Cursor top) (newext : Extent) (levels : Nat) (sb : SuperBlock) :
    Option (ExtRoot × SuperBlock) := do
  let i ← c.pExt
  if c.leaf.length ≠ ehMax c.path then none
  else
    let border := match c.leaf[i + 1]? with
      | some next => next.eeBlock
      | none => newext.eeBlock
    let (ablocks,sb) ← allocNodes (levels + 1) sb
    match ablocks.reverse with
    | [] => none
    | newblock :: ablocks =>
      let sb := markBufferDirty sb newblock
      let sb := if c.leaf.drop (i + 1) = [] then sb else mlfsExtDirty c.path sb
      let (node,sb) ← splitUp border c.path (leafNode (c.leaf.take (i + 1))) newblock
        (leafNode (c.leaf.drop (i + 1))) ablocks sb
      some (⟨top,node⟩,sb)

def topBlock : {d : Nat} → Tree d → Option Nat
  | 0,leaf => (leafOf leaf).head?.map (·.eeBlock)
  | _ + 1,node => (entriesOf node).head?.map (·.1.eiBlock)

def mlfsExtGrowIndepth (root : ExtRoot) (sb : SuperBlock) : Option (ExtRoot × SuperBlock) := do
  let (newblock,sb) ← mlfsNewMetaBlocks sb
  let first ← topBlock root.node
  some (⟨root.ehDepth + 1,indexNode [(⟨first,newblock⟩,root.node)]⟩,markBufferDirty sb newblock)

-- After growing, a leaf that is still full is split in a second round.
def mlfsExtCreateNewLeaf (root : ExtRoot) (c : Cursor root.ehDepth) (newext : Extent) (sb : SuperBlock) :
    Option (ExtRoot × SuperBlock) :=
  match levelsToFreeIndex c.path with
  | some levels => mlfsExtSplit c newext levels sb
  | none => do
      let (grown,sb) ← mlfsExtGrowIndepth root sb
      let c ← mlfsFindExtent grown newext.eeBlock
      if c.leaf.length = ehMax c.path then do
        let levels ← levelsToFreeIndex c.path
        mlfsExtSplit c newext levels sb
      else some (grown,sb)

def siblingWithSpace (root : ExtRoot) (c : Cursor root.ehDepth) (newext : Extent) : Option (Cursor root.ehDepth) := do
  let last ← c.leaf.getLast?
  if last.eeBlock < newext.eeBlock ∧ mlfsExtNextLeafBlock c.path ≠ extMaxBlocks then do
    let npath ← mlfsFindExtent root (mlfsExtNextLeafBlock c.path)
    if npath.leaf.length < ehMax npath.path then some npath else none
  else none

def insertExtent (root : ExtRoot) (c : Cursor root.ehDepth) (newext : Extent) (preIo : Bool) (sb : SuperBlock) :
    Option (ExtRoot × SuperBlock) :=
  if c.leaf.length < ehMax c.path then insertAt c newext preIo sb
  else match siblingWithSpace root c newext with
    | some npath => insertAt npath newext preIo sb
    | none => do
        let (root,sb) ← mlfsExtCreateNewLeaf root c newext sb
        let c ← mlfsFindExtent root newext.eeBlock
        insertAt c newext preIo sb

def mlfsExtInsertExtent (root : ExtRoot) (c : Cursor root.ehDepth) (newext : Extent) (preIo : Bool)
    (sb : SuperBlock) : Option (ExtRoot × SuperBlock) :=
  if newext.eeLen = 0 then none
  else match (if preIo then none else c.pExt.bind fun i => (extendExtent c.leaf i newext).map fun ext => (ext,i)) with
    | some ((leaf,near),i) => mergeAndCorrect c.path leaf near i preIo sb
    | none => insertExtent root c newext preIo sb

structure MapResult where
  ret : Nat
  mPblk : Nat
  mLen : Nat
deriving DecidableEq, Repr

def mlfsExtDetermineHole {top : Nat} (c : Cursor top) (ex : Option Extent) (mLblk : Nat) : Option Nat :=
  match ex with
  | none => some (extMaxBlocks - mLblk)
  | some ex =>
    if mLblk < ex.eeBlock then some (ex.eeBlock - mLblk)
    else
      let next := mlfsExtNextAllocatedBlock c
      if next = ex.eeBlock + ex.eeLen then none else some (next - mLblk)

def mlfsExtGetBlocks (root : ExtRoot) (sb : SuperBlock) (mLblk mLen : Nat) (create : Bool) :
    Option (MapResult × ExtRoot × SuperBlock) := do
  let c ← mlfsFindExtent root mLblk
  let ex := c.pExt.bind fun i => c.leaf[i]?
  if ex = none ∧ root.ehDepth ≠ 0 then none
  else match ex.filter fun ex => decide (ex.eeBlock ≤ mLblk ∧ mLblk < ex.eeBlock + ex.eeLen) with
    | some ex =>
      let allocated := min (ex.eeLen + ex.eeBlock - mLblk) mLen
      some (⟨allocated,mLblk - ex.eeBlock + ex.eeStart,allocated⟩,root,sb)
    | none =>
      if create then do
        -- `BUG_ON(next <= map->m_lblk)`
        let next := mlfsExtNextAllocatedBlock c
        if next ≤ mLblk then none
        else
          let allocated := min (next - mLblk) mLen
          let (newblock,sb) ← mlfsExtAllocBlocks sb .data allocated
          let (root,sb) ← mlfsExtInsertExtent root c ⟨mLblk,allocated,newblock⟩ false sb
          some (⟨allocated,newblock,allocated⟩,root,sb)
      else do
        let hole ← mlfsExtDetermineHole c ex mLblk
        some (⟨0,0,min mLen hole⟩,root,sb)

-- One leaf's extents from the last to the first: what is kept, and `correct_index`.
def rmExtents (start stop : Nat) (bh : Option Nat) :
    List Extent → SuperBlock → Option (List Extent × Bool × SuperBlock)
  | [],sb => some ([],false,sb)
  | ex :: before,sb =>
    if ex.eeBlock + ex.eeLen ≤ start then some (ex :: before,false,sb)
    else if stop < ex.eeBlock then do
      let (kept,first,sb) ← rmExtents start stop bh before sb
      some (ex :: kept,first,sb)
    else if stop < ex.eeBlock + ex.eeLen - 1 then none
    else do
      let num := max ex.eeBlock start - ex.eeBlock
      let sb ← mlfsFreeBlocks sb (ex.eeStart + num) (ex.eeLen - num)
      let (kept,first,sb) ← rmExtents start stop bh before (dirtyNode bh sb)
      some (if num = 0 then kept else {ex with eeLen := num} :: kept,first || before.isEmpty,sb)

-- The leaf left, and the key its index entry gets if its first extent was reached.
def mlfsExtRmLeaf (start stop : Nat) (bh : Option Nat) (leaf : List Extent) (sb : SuperBlock) :
    Option (List Extent × Option Nat × SuperBlock) := do
  let (kept,first,sb) ← rmExtents start stop bh leaf.reverse sb
  some (kept.reverse,if first then kept.getLast?.map (·.eeBlock) else none,sb)

def isEmptyNode : {d : Nat} → Tree d → Bool
  | 0,leaf => (leafOf leaf).isEmpty
  | _ + 1,node => (entriesOf node).isEmpty

-- What an index node does once a child is done: a new key for the child (`mlfs_ext_correct_indexes`), or its removal
-- when empty (`mlfs_ext_rm_idx`). If it is the `first` entry the node's own key changes too. A removed entry leaves
-- its key in the slot if no entry follows.
def settleChild {d : Nat} (bh : Option Nat) (first : Bool) (pIdx : ExtentIdx) (child : Tree d) (key : Option Nat)
    (right : List (ExtentIdx × Tree d)) (sb : SuperBlock) :
    Option (List (ExtentIdx × Tree d) × Option Nat × SuperBlock) :=
  let pIdx : ExtentIdx := {pIdx with eiBlock := key.getD pIdx.eiBlock}
  let sb := if key.isSome then dirtyNode bh sb else sb
  if isEmptyNode child then do
    let sb ← mlfsFreeBlocks (dirtyNode bh sb) pIdx.eiLeaf 1
    let next := match right with
      | (idx,_) :: _ => idx.eiBlock
      | [] => pIdx.eiBlock
    some (right,if first then some next else none,sb)
  else some ((pIdx,child) :: right,if first then key else none,sb)

-- The entries of an index node from right to left; the walk goes on past a child only when its
-- entry was removed (`mlfs_ext_more_to_rm`).
def rmEntries {d : Nat} (rm : Option Nat → Tree d → SuperBlock → Option (Tree d × Option Nat × SuperBlock))
    (bh : Option Nat) : List (ExtentIdx × Tree d) → List (ExtentIdx × Tree d) → Option Nat → SuperBlock →
    Option (List (ExtentIdx × Tree d) × Option Nat × SuperBlock)
  | [],right,key,sb => some (right,key,sb)
  | (pIdx,child) :: left,right,_,sb => do
      let (child,key,sb) ← rm (some pIdx.eiLeaf) child sb
      let (after,key,sb) ← settleChild bh left.isEmpty pIdx child key right sb
      if isEmptyNode child then rmEntries rm bh left after key sb
      else some (left.reverse ++ after,key,sb)

def rmNode (start stop : Nat) : {d : Nat} → Option Nat → Tree d → SuperBlock →
    Option (Tree d × Option Nat × SuperBlock)
  | 0,bh,leaf,sb => mlfsExtRmLeaf start stop bh (leafOf leaf) sb
  | _ + 1,bh,node,sb => rmEntries (rmNode start stop) bh (entriesOf node).reverse [] none sb

-- The way up from the leaf the path names. Each level goes on to the left of the path; at the root `p_block` still
-- holds the block number of the lookup.
def rmUp (start stop : Nat) : {d top : Nat} → ExtPath d top → Tree d → Option Nat → SuperBlock →
    Option (Tree top × SuperBlock)
  | _,_,.root,node,_,sb => some (node,sb)
  | _,_,.under left pIdx right up,child,key,sb => do
      let (after,key,sb) ← settleChild (pBh up) left.isEmpty pIdx child key right sb
      if pBh up = none ∧ left.length + after.length = pIdx.eiLeaf then
        rmUp start stop up (indexNode (left ++ after)) key sb
      else do
        let (entries,key,sb) ← rmEntries (rmNode start stop) (pBh up) left.reverse after key sb
        rmUp start stop up (indexNode entries) key sb

def emptiedRoot (root : ExtRoot) : ExtRoot :=
  if isEmptyNode root.node then ⟨0,leafNode []⟩ else root

def removeFrom (root : ExtRoot) (c : Cursor root.ehDepth) (start stop : Nat) (sb : SuperBlock) :
    Option (ExtRoot × SuperBlock) := do
  let (leaf,key,sb) ← mlfsExtRmLeaf start stop (pBh c.path) c.leaf sb
  let (node,sb) ← rmUp start stop c.path (leafNode leaf) key sb
  some (emptiedRoot ⟨root.ehDepth,node⟩,sb)

-- The extent at position `i` is cut before `split`, and the rest is inserted. The caller goes on with the cursor of
-- the new extent, or of the old one if the new one went to the next leaf.
def mlfsForceSplitExtentAt (root : ExtRoot) (c : Cursor root.ehDepth) (i : Nat) (ex : Extent) (split : Nat)
    (sb : SuperBlock) : Option (ExtRoot × Nat × SuperBlock) := do
  let leaf := c.leaf.set i {ex with eeLen := split - ex.eeBlock}
  let c : Cursor root.ehDepth := ⟨c.path,leaf,some i⟩
  let shortened : ExtRoot := ⟨root.ehDepth,plug c.path (leafNode leaf)⟩
  let newex : Extent := ⟨split,ex.eeLen - (split - ex.eeBlock),split - ex.eeBlock + ex.eeStart⟩
  let place := if c.leaf.length < ehMax c.path ∨ siblingWithSpace shortened c newex = none then split
    else split - 1
  let (root,sb) ← mlfsExtInsertExtent shortened c newex true (mlfsExtDirty c.path sb)
  some (root,place,sb)

-- For `stop ≥ EXT_MAX_BLOCKS - 1` the source walks an uninitialised path.
def mlfsExtRemoveSpace (root : ExtRoot) (start stop : Nat) (sb : SuperBlock) : Option (ExtRoot × SuperBlock) := do
  if extMaxBlocks - 1 ≤ stop then none
  else
    let c ← mlfsFindExtent root stop
    match c.pExt with
    | none => if root.ehDepth = 0 then some (root,sb) else none
    | some i => do
        let ex ← c.leaf[i]?
        if ex.eeBlock + ex.eeLen = 0 then some (root,sb)
        else if ex.eeBlock ≤ stop ∧ stop < ex.eeBlock + ex.eeLen - 1 then do
          let (root,place,sb) ← mlfsForceSplitExtentAt root c i ex (stop + 1) sb
          let c ← mlfsFindExtent root place
          removeFrom root c start stop sb
        else removeFrom root c start stop sb

def mlfsExtTruncate (root : ExtRoot) (start stop : Nat) (sb : SuperBlock) : Option (ExtRoot × SuperBlock) :=
  mlfsExtRemoveSpace root start stop sb

end Assise.Extents
