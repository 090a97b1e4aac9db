import Assise.FreeRanges
import Assise.Lib.SearchTree
import Mathlib.Data.List.TakeWhile

-- The free lists with the shape of their red-black trees. A returned range is tested only against the last node its
-- search meets. Rebalancing may leave any tree with the same nodes in order.
namespace Assise.FreeTree

open Balloc (RangeNode AllocType)
open Lib.SearchTree

inductive Errno where
  | einval
  | enospc
deriving DecidableEq, Repr

-- `firstNode` gives the node the pointer names by its position in the tree's order.
structure FreeList where
  blockFreeTree : NodeTree RangeNode
  firstNode : Option Nat
  numBlocknode : Nat
  numFreeBlocks : Nat
  blockStart : Nat
  blockEnd : Nat
deriving DecidableEq, Repr

structure Allocator where
  freeLists : List FreeList
  sharedFreeList : FreeList
  perListBlocks : Nat
deriving DecidableEq, Repr

def FreeList.nodes (fl : FreeList) : List RangeNode := fl.blockFreeTree.listing

def mlfsRbtreeCompareRangenode (rangeLow : Nat) (curr : RangeNode) : Ordering :=
  if rangeLow < curr.rangeLow then .lt else if curr.rangeHigh < rangeLow then .gt else .eq

def mlfsFindRangeNode (tree : NodeTree RangeNode) (rangeLow : Nat) : Option (Nat × RangeNode) :=
  tree.search (mlfsRbtreeCompareRangenode rangeLow) 0 none

def mlfsInsertRangeNode (tree : NodeTree RangeNode) (new : RangeNode) : Option (NodeTree RangeNode) :=
  match mlfsFindRangeNode tree new.rangeLow with
  | none => some (tree.insertAt new 0)
  | some (i,curr) =>
    match mlfsRbtreeCompareRangenode new.rangeLow curr with
    | .lt => some (tree.insertAt new i)
    | .gt => some (tree.insertAt new (i + 1))
    | .eq => none

-- How many nodes lie before the slot; `prev` is the last of them, `next` the one behind them.
def mlfsFindFreeSlot (tree : NodeTree RangeNode) (rangeLow rangeHigh : Nat) : Option Nat :=
  match mlfsFindRangeNode tree rangeLow with
  | none => some 0
  | some (i,node) =>
    if mlfsRbtreeCompareRangenode rangeLow node = .eq then none
    else if node.rangeHigh < rangeLow then some (i + 1)
    else if rangeHigh < node.rangeLow then some i
    else none

def afterErase (gone : Nat) (pointer : Option Nat) : Option Nat := pointer.map fun i => if gone < i then i - 1 else i
def afterInsert (new : Nat) (pointer : Option Nat) : Option Nat := pointer.map fun i => if new ≤ i then i + 1 else i

def fillHole (fl : FreeList) (k : Nat) (next : RangeNode) : FreeList :=
  { fl with
    blockFreeTree := (fl.blockFreeTree.eraseAt k).modifyAt (fun prev => {prev with rangeHigh := next.rangeHigh}) (k - 1)
    firstNode := afterErase k fl.firstNode
    numBlocknode := fl.numBlocknode - 1 }

def alignLeft (fl : FreeList) (k num : Nat) : FreeList :=
  {fl with blockFreeTree := fl.blockFreeTree.modifyAt (fun prev => {prev with rangeHigh := prev.rangeHigh + num}) (k - 1)}

def alignRight (fl : FreeList) (k num : Nat) : FreeList :=
  {fl with blockFreeTree := fl.blockFreeTree.modifyAt (fun next => {next with rangeLow := next.rangeLow - num}) k}

def addNode (fl : FreeList) (k low high : Nat) : Option FreeList :=
  (mlfsInsertRangeNode fl.blockFreeTree ⟨low,high⟩).map fun tree =>
    { fl with
      blockFreeTree := tree
      firstNode := if k = 0 then some 0 else afterInsert k fl.firstNode
      numBlocknode := fl.numBlocknode + 1 }

def insertRange (fl : FreeList) (k low high : Nat) : Option FreeList :=
  let prev := (fl.nodes.take k).getLast?
  let next := (fl.nodes.drop k).head?
  match prev.filter (fun prev => low = prev.rangeHigh + 1),next.filter (fun next => high + 1 = next.rangeLow) with
  | some _,some next => some (fillHole fl k next)
  | some _,none => some (alignLeft fl k (high + 1 - low))
  | none,some _ => some (alignRight fl k (high + 1 - low))
  | none,none => addNode fl k low high

def freeInList (fl : FreeList) (blocknr num : Nat) : Option FreeList := do
  let k ← mlfsFindFreeSlot fl.blockFreeTree blocknr (blocknr + num - 1)
  let fl ← insertRange fl k blocknr (blocknr + num - 1)
  some {fl with numFreeBlocks := fl.numFreeBlocks + num}

-- Fewer partitions than `SHARED_PARTITION` (65536), whose number stands for the shared list. `mkfs` makes one.
def Allocator.listOf (s : Allocator) (blocknr : Nat) : FreeList :=
  (s.freeLists[blocknr / s.perListBlocks]?).getD s.sharedFreeList

def Allocator.setList (s : Allocator) (blocknr : Nat) (fl : FreeList) : Allocator :=
  if blocknr / s.perListBlocks < s.freeLists.length then
    {s with freeLists := s.freeLists.set (blocknr / s.perListBlocks) fl}
  else {s with sharedFreeList := fl}

def mlfsFreeBlocksNode (s : Allocator) (blocknr num : Nat) : Except Errno Unit × Allocator :=
  if num = 0 then (.error .einval,s)
  else match freeInList (s.listOf blocknr) blocknr num with
    | none => (.error .einval,s)
    | some fl => (.ok (),s.setList blocknr fl)

def firstFit (num : Nat) : Nat → List RangeNode → Option (Nat × RangeNode)
  | _,[] => none
  | i,curr :: rest => if curr.size < num then firstFit num (i + 1) rest else some (i,curr)

def scanStart (fl : FreeList) : AllocType → Option Nat
  | .tree => if fl.nodes = [] then none else some (fl.nodes.length - 1)
  | _ => fl.firstNode

def scan (fl : FreeList) (atype : AllocType) (num : Nat) : Option (Nat × RangeNode) :=
  (scanStart fl atype).bind fun start => firstFit num start (fl.nodes.drop start)

def mlfsAllocBlocksInFreeList (fl : FreeList) (atype : AllocType) (num : Nat) : Option Nat × FreeList :=
  match scan fl atype num with
  | none => (none,{fl with numFreeBlocks := fl.numFreeBlocks - num})
  | some (i,curr) =>
    if num = curr.size then
      (some curr.rangeLow,
        { fl with
          blockFreeTree := fl.blockFreeTree.eraseAt i
          firstNode := if fl.firstNode = some i then (if i + 1 < fl.nodes.length then some i else none)
            else afterErase i fl.firstNode
          numBlocknode := fl.numBlocknode - 1
          numFreeBlocks := fl.numFreeBlocks - num })
    else match atype with
      | .tree =>
        (some curr.rangeHigh,
          { fl with
            blockFreeTree := fl.blockFreeTree.modifyAt (fun curr => {curr with rangeHigh := curr.rangeHigh - num}) i
            numFreeBlocks := fl.numFreeBlocks - num })
      | _ =>
        (some curr.rangeLow,
          { fl with
            blockFreeTree := fl.blockFreeTree.modifyAt (fun curr => {curr with rangeLow := curr.rangeLow + num}) i
            numFreeBlocks := fl.numFreeBlocks - num })

def mlfsFindFreeList (s : Allocator) (num : Nat) : Option Nat :=
  s.freeLists.findIdx? fun fl => decide (num < fl.numFreeBlocks)

def findFirstNode (fl : FreeList) : FreeList :=
  if fl.firstNode = none then {fl with firstNode := if fl.nodes = [] then none else some 0} else fl

def mlfsNewBlocks (s : Allocator) (num : Nat) (atype : AllocType) : Except Errno Nat × Allocator :=
  if num = 0 then (.error .einval,s)
  else match mlfsFindFreeList s num with
    | none => (.error .enospc,s)
    | some id =>
      match s.freeLists[id]? with
      | none => (.error .enospc,s)
      | some fl =>
        let (found,fl) := mlfsAllocBlocksInFreeList (findFirstNode fl) atype num
        (match found.filter (· ≠ 0) with
          | some blocknr => .ok blocknr
          | none => .error .enospc,
          {s with freeLists := s.freeLists.set id fl})

-- One partition after `mlfs_init_blockmap`; `fresh` is its argument `initialize`. Without it the
-- ranges are read from the bitmap later on.
def initList (fresh : Bool) (perListBlocks reservedBlocks i : Nat) : FreeList :=
  let blockStart := perListBlocks * i
  let blockEnd := blockStart + perListBlocks - 1
  if fresh then
    let used := if i = 0 then reservedBlocks else 0
    ⟨.node .nil ⟨blockStart + used,blockEnd⟩ .nil,some 0,1,perListBlocks - used,blockStart + used,blockEnd⟩
  else ⟨.nil,none,0,0,blockStart,blockEnd⟩

-- The shared list gets the blocks that are left over, but no range for them.
def mlfsInitBlockmap (fresh : Bool) (numBlocks reservedBlocks nPartition : Nat) : Allocator :=
  let perListBlocks := numBlocks / nPartition
  let blockEnd := perListBlocks * (nPartition - 1) + perListBlocks - 1
  { freeLists := (List.range nPartition).map (initList fresh perListBlocks reservedBlocks)
    sharedFreeList := if blockEnd + 1 < numBlocks then ⟨.nil,none,0,0,blockEnd + 1,numBlocks - 1⟩ else ⟨.nil,none,0,0,0,0⟩
    perListBlocks := perListBlocks }

structure Sorted (tree : NodeTree RangeNode) : Prop where
  ordered : ∀ n ∈ tree.listing, n.rangeLow ≤ n.rangeHigh
  apart : tree.listing.Pairwise fun a b => a.rangeHigh < b.rangeLow

def RangeNode.Holds (n : RangeNode) (b : Nat) : Prop := n.rangeLow ≤ b ∧ b ≤ n.rangeHigh

instance (n : RangeNode) (b : Nat) : Decidable (RangeNode.Holds n b) := by
  unfold RangeNode.Holds
  infer_instance

def endBefore (tree : NodeTree RangeNode) (b : Nat) : List RangeNode := tree.listing.takeWhile fun n => decide (n.rangeHigh < b)

-- The search for `low` notices a free range that overlaps the one to be returned if the range holds
-- `low`, or if the nearest range above is met after the nearest one below.
def Noticed (tree : NodeTree RangeNode) (low : Nat) : Prop :=
  (∃ n ∈ tree.listing, RangeNode.Holds n low) ∨ tree.EndsAbove (endBefore tree low).length

instance (tree : NodeTree RangeNode) (low : Nat) : Decidable (Noticed tree low) := by
  unfold Noticed
  infer_instance

section Search
variable {tree : NodeTree RangeNode} {low high : Nat}

variable {n : RangeNode}

theorem compare_gt (ordered : n.rangeLow ≤ n.rangeHigh) (ends : n.rangeHigh < low) :
    mlfsRbtreeCompareRangenode low n = .gt := by
  rw [mlfsRbtreeCompareRangenode,if_neg (by omega),if_pos ends]

theorem compare_lt (starts : low < n.rangeLow) : mlfsRbtreeCompareRangenode low n = .lt := if_pos starts

theorem compare_eq : mlfsRbtreeCompareRangenode low n = .eq ↔ RangeNode.Holds n low := by
  unfold mlfsRbtreeCompareRangenode RangeNode.Holds
  split
  · simp
    omega
  · split
    · simp
      omega
    · simp
      omega

section
variable (sorted : Sorted tree)
include sorted

theorem Sorted.split (low : Nat) :
    ∃ behind, tree.listing = endBefore tree low ++ behind ∧ (∀ n ∈ endBefore tree low, n.rangeHigh < low) ∧
      ((∀ n ∈ behind, low < n.rangeLow) ∨
        ∃ held rest, behind = held :: rest ∧ RangeNode.Holds held low ∧ ∀ n ∈ rest, low < n.rangeLow) := by
  refine ⟨_,(List.takeWhile_append_dropWhile).symm,fun n member => by simpa using List.mem_takeWhile_imp member,?_⟩
  have sub := (List.dropWhile_sublist (fun n : RangeNode => decide (n.rangeHigh < low)) (l:=tree.listing))
  have apart := sorted.apart.sublist sub
  cases shape : tree.listing.dropWhile fun n => decide (n.rangeHigh < low) with
  | nil => exact Or.inl (by simp)
  | cons first rest =>
    have reach : ¬ first.rangeHigh < low := by
      have head := List.head_dropWhile_not (fun n : RangeNode => decide (n.rangeHigh < low)) (show _ ≠ [] by rw [shape]; simp)
      simpa [shape] using head
    rw [shape] at apart
    have later := (List.pairwise_cons.mp apart).1
    have ordered := sorted.ordered first (sub.subset (by simp [shape]))
    by_cases starts : low < first.rangeLow
    · refine Or.inl fun n member => ?_
      rcases List.mem_cons.mp member with rfl | member
      · exact starts
      · have bound := later n member
        omega
    · refine Or.inr ⟨first,rest,rfl,⟨by omega,by omega⟩,fun n member => ?_⟩
      have bound := later n member
      omega

theorem findRangeNode_holds (member : n ∈ tree.listing)
    (holds : RangeNode.Holds n low) : ∃ i node, mlfsFindRangeNode tree low = some (i,node) ∧ RangeNode.Holds node low := by
  obtain ⟨behind,whole,early,late | ⟨held,rest,rfl,inside,late⟩⟩ := sorted.split low
  · rw [whole] at member
    obtain ⟨starts,ends⟩ := holds
    rcases List.mem_append.mp member with before | after
    · have bound := early n before
      omega
    · have bound := late n after
      omega
  · refine ⟨_,held,NodeTree.search_hit _ 0 none whole (compare_eq.mpr inside) (fun x member => ?_) fun x member => compare_lt (late x member),inside⟩
    exact compare_gt (sorted.ordered x (by rw [whole]; simp [member])) (early x member)

theorem findRangeNode_gap (gap : ∀ n ∈ tree.listing, ¬ RangeNode.Holds n low) :
    ∃ behind, tree.listing = endBefore tree low ++ behind ∧ (∀ n ∈ endBefore tree low, n.rangeHigh < low) ∧
      (∀ n ∈ behind, low < n.rangeLow) ∧
      (tree = .nil ∨
        (tree.EndsAbove (endBefore tree low).length ∧ ∃ next rest, behind = next :: rest ∧
          mlfsFindRangeNode tree low = some ((endBefore tree low).length,next)) ∨
        (¬ tree.EndsAbove (endBefore tree low).length ∧ ∃ front prev, endBefore tree low = front ++ [prev] ∧
          mlfsFindRangeNode tree low = some (front.length,prev))) := by
  obtain ⟨behind,whole,early,late | ⟨held,rest,rfl,inside,_⟩⟩ := sorted.split low
  · refine ⟨behind,whole,early,late,?_⟩
    by_cases empty : tree = .nil
    · exact Or.inl empty
    · obtain ⟨above,under⟩ := NodeTree.search_gap (mlfsRbtreeCompareRangenode low) 0 none empty whole
        (fun x member => compare_gt (sorted.ordered x (by rw [whole]; simp [member])) (early x member))
        (fun x member => compare_lt (late x member))
      by_cases ends : tree.EndsAbove (endBefore tree low).length
      · obtain ⟨next,rest,shape,found⟩ := above ends
        exact Or.inr (Or.inl ⟨ends,next,rest,shape,by rw [mlfsFindRangeNode,found,zero_add]⟩)
      · obtain ⟨front,prev,shape,found⟩ := under ends
        exact Or.inr (Or.inr ⟨ends,front,prev,shape,by rw [mlfsFindRangeNode,found,zero_add]⟩)
  · exact absurd inside (gap held (by rw [whole]; simp))

theorem findFreeSlot_gap (gap : ∀ n ∈ tree.listing, ¬ RangeNode.Holds n low) :
    mlfsFindFreeSlot tree low high =
      if tree.EndsAbove (endBefore tree low).length ∧ ∃ n ∈ tree.listing, low < n.rangeLow ∧ n.rangeLow ≤ high then none
      else some (endBefore tree low).length := by
  obtain ⟨behind,whole,early,late,empty | ⟨ends,next,rest,rfl,found⟩ | ⟨ends,front,prev,shape,found⟩⟩ :=
    findRangeNode_gap sorted gap
  · subst empty
    rw [if_neg (fun overlap => Nat.not_lt_zero _ overlap.1.1)]
    rfl
  · have other : ¬ mlfsRbtreeCompareRangenode low next = .eq := fun same =>
      gap next (by rw [whole]; simp) (compare_eq.mp same)
    have starts := late next (by simp)
    have ordered := sorted.ordered next (by rw [whole]; simp)
    have nearest : (∃ n ∈ tree.listing, low < n.rangeLow ∧ n.rangeLow ≤ high) ↔ next.rangeLow ≤ high := by
      constructor
      · rintro ⟨n,member,above,overlaps⟩
        rw [whole] at member
        rcases List.mem_append.mp member with before | after
        · have bound := early n before
          have order := sorted.ordered n (by rw [whole]; simp [before])
          omega
        · rcases List.mem_cons.mp after with rfl | after
          · exact overlaps
          · have apart := sorted.apart
            rw [whole] at apart
            have further := (List.pairwise_cons.mp (List.pairwise_append.mp apart).2.1).1 n after
            omega
      · exact fun overlaps => ⟨next,by rw [whole]; simp,starts,overlaps⟩
    simp only [mlfsFindFreeSlot,found,nearest,ends,true_and]
    rw [if_neg other,if_neg (by omega)]
    by_cases overlaps : next.rangeLow ≤ high
    · rw [if_neg (by omega),if_pos overlaps]
    · rw [if_pos (by omega),if_neg overlaps]
  · have other : ¬ mlfsRbtreeCompareRangenode low prev = .eq := fun same =>
      gap prev (by rw [whole,shape]; simp) (compare_eq.mp same)
    have ended := early prev (by simp [shape])
    simp only [mlfsFindFreeSlot,found,ends,false_and,if_false]
    rw [if_neg other,if_pos ended,shape]
    simp

theorem findFreeSlot_holds (member : n ∈ tree.listing)
    (holds : RangeNode.Holds n low) : mlfsFindFreeSlot tree low high = none := by
  obtain ⟨i,node,found,inside⟩ := findRangeNode_holds sorted member holds
  simp only [mlfsFindFreeSlot,found]
  rw [if_pos (compare_eq.mpr inside)]

end

end Search

theorem insertRangeNode_slot {tree : NodeTree RangeNode} {low high k : Nat} (ordered : ∀ n ∈ tree.listing, n.rangeLow ≤ n.rangeHigh)
    (range : low ≤ high) (slot : mlfsFindFreeSlot tree low high = some k) :
    mlfsInsertRangeNode tree ⟨low,high⟩ = some (tree.insertAt ⟨low,high⟩ k) ∧ k ≤ tree.size := by
  unfold mlfsFindFreeSlot at slot
  unfold mlfsInsertRangeNode
  cases found : mlfsFindRangeNode tree low with
  | none =>
    rw [found] at slot
    cases slot
    exact ⟨rfl,Nat.zero_le _⟩
  | some met =>
    obtain ⟨i,node⟩ := met
    rw [found] at slot
    dsimp only at slot ⊢
    rcases NodeTree.search_position found with none | ⟨before,after,whole,place⟩
    · cases none
    · have inside : i < tree.size := by
        rw [place,←NodeTree.length_listing,whole]
        simp
      have order := ordered node (by rw [whole]; simp)
      split at slot
      · cases slot
      · split at slot
        · rename_i ended
          cases slot
          rw [compare_gt order ended]
          exact ⟨rfl,inside⟩
        · split at slot
          · cases slot
            rw [compare_lt (by omega)]
            exact ⟨rfl,le_of_lt inside⟩
          · cases slot

theorem insertRange_slot {fl : FreeList} {low high k : Nat} (ordered : ∀ n ∈ fl.nodes, n.rangeLow ≤ n.rangeHigh)
    (range : low ≤ high) (slot : mlfsFindFreeSlot fl.blockFreeTree low high = some k) :
    ∃ after, insertRange fl k low high = some after := by
  unfold insertRange
  dsimp only
  split
  · exact ⟨_,rfl⟩
  · exact ⟨_,rfl⟩
  · exact ⟨_,rfl⟩
  · rw [addNode,(insertRangeNode_slot ordered range slot).1]
    exact ⟨_,rfl⟩

theorem overlap_refused_iff (s : Allocator) (blocknr num : Nat) (sorted : Sorted (s.listOf blocknr).blockFreeTree)
    (asked : 0 < num) (overlap : ∃ n ∈ (s.listOf blocknr).nodes, n.rangeLow ≤ blocknr + num - 1 ∧ blocknr ≤ n.rangeHigh) :
    mlfsFreeBlocksNode s blocknr num = (.error .einval,s) ↔ Noticed (s.listOf blocknr).blockFreeTree blocknr := by
  have refused : mlfsFreeBlocksNode s blocknr num = (.error .einval,s) ↔
      mlfsFindFreeSlot (s.listOf blocknr).blockFreeTree blocknr (blocknr + num - 1) = none := by
    unfold mlfsFreeBlocksNode freeInList
    rw [if_neg (Nat.ne_of_gt asked)]
    cases slot : mlfsFindFreeSlot (s.listOf blocknr).blockFreeTree blocknr (blocknr + num - 1) with
    | none => simp
    | some k =>
      obtain ⟨after,inserted⟩ := insertRange_slot sorted.ordered (by omega) slot
      simp [inserted]
  rw [refused]
  by_cases inside : ∃ n ∈ (s.listOf blocknr).nodes, RangeNode.Holds n blocknr
  · obtain ⟨n,member,holds⟩ := inside
    exact iff_of_true (findFreeSlot_holds sorted member holds) (Or.inl ⟨n,member,holds⟩)
  · have gap : ∀ n ∈ (s.listOf blocknr).blockFreeTree.listing, ¬ RangeNode.Holds n blocknr :=
      fun n member holds => inside ⟨n,member,holds⟩
    obtain ⟨n,member,starts,ends⟩ := overlap
    have above : blocknr < n.rangeLow := by
      have outside := gap n member
      unfold RangeNode.Holds at outside
      omega
    have noticed : Noticed (s.listOf blocknr).blockFreeTree blocknr ↔
        (s.listOf blocknr).blockFreeTree.EndsAbove (endBefore (s.listOf blocknr).blockFreeTree blocknr).length :=
      or_iff_right fun held => inside held
    rw [findFreeSlot_gap sorted gap,noticed]
    have overlaps : ∃ n ∈ (s.listOf blocknr).blockFreeTree.listing, blocknr < n.rangeLow ∧ n.rangeLow ≤ blocknr + num - 1 :=
      ⟨n,member,above,starts⟩
    simp [overlaps]

theorem overlap_refused_right_child :
    mlfsFreeBlocksNode ⟨[⟨.node .nil ⟨10,19⟩ (.node .nil ⟨30,99⟩ .nil),some 0,2,80,10,99⟩],⟨.nil,none,0,0,0,0⟩,100⟩ 20 15 =
      (.error .einval,⟨[⟨.node .nil ⟨10,19⟩ (.node .nil ⟨30,99⟩ .nil),some 0,2,80,10,99⟩],⟨.nil,none,0,0,0,0⟩,100⟩) :=
  (overlap_refused_iff _ 20 15 ⟨by decide,by decide⟩ (by decide) (by decide)).mpr (by decide)

-- Blocks 10 to 29 are handed out and 10 to 19 come back, to the left of their node. The search for 20 ends at the
-- lower node, so the return of 20 to 34 is taken although 30 to 34 are free.
theorem overlap_accepted : ∃ s₁ s₂ s₃,
    mlfsNewBlocks (mlfsInitBlockmap true 100 10 1) 20 .data = (.ok 10,s₁) ∧ mlfsFreeBlocksNode s₁ 10 10 = (.ok (),s₂) ∧
    (s₂.listOf 20).nodes = [⟨10,19⟩,⟨30,99⟩] ∧ mlfsFreeBlocksNode s₂ 20 15 = (.ok (),s₃) ∧
    (s₃.listOf 20).nodes = [⟨10,34⟩,⟨30,99⟩] ∧ (s₃.listOf 20).numFreeBlocks = 95 :=
  ⟨_,_,_,rfl,rfl,rfl,rfl,rfl,rfl⟩

end Assise.FreeTree
