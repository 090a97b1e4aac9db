import Assise.Ledger

-- When an allocation or a return cannot fail: one partition, with its counters and its first node
-- in step with its ranges.
namespace Assise.Balloc

open Bitmap Lib.Spans List

structure FreeList.Tracked (fl : FreeList) : Prop where
  count : fl.numFreeBlocks = fl.free.card
  first : fl.firstNode = none ∨ fl.firstNode = fl.blockFreeTree.head?.map (·.rangeLow)

variable {fl : FreeList} {n : RangeNode} {num : Nat} {atype : AllocType} {sb : SuperBlock} {held : Multiset Nat}
    {phase : Phase} {a b : Account}

theorem findFirstNode_tracked (tracked : fl.Tracked) : (findFirstNode fl).Tracked ∧
    (findFirstNode fl).firstNode = fl.blockFreeTree.head?.map (·.rangeLow) := by
  unfold findFirstNode
  split
  · exact ⟨⟨tracked.count,Or.inr rfl⟩,rfl⟩
  · rename_i known
    exact ⟨tracked,tracked.first.resolve_left known⟩

theorem firstFit_some {nodes : List RangeNode} (member : n ∈ nodes)
    (large : num ≤ n.size) : ∃ small found after, firstFit num nodes = some (small,found,after) := by
  induction nodes with
  | nil => cases member
  | cons curr rest ih =>
    unfold firstFit
    split
    · rename_i tooSmall
      rcases mem_cons.mp member with rfl | later
      · omega
      · obtain ⟨small,found,after,fit⟩ := ih later
        exact ⟨curr :: small,found,after,by rw [fit]; rfl⟩
    · exact ⟨[],curr,rest,rfl⟩

theorem allocInList_some
    (visited : n ∈ (scanStart fl atype).2) (large : num ≤ n.size) :
    ∃ blocknr after, mlfsAllocBlocksInFreeList fl atype num = (some blocknr,after) := by
  obtain ⟨small,curr,rest,fit⟩ := firstFit_some visited large
  unfold mlfsAllocBlocksInFreeList
  simp only [fit]
  split
  · exact ⟨_,_,rfl⟩
  · cases atype <;> exact ⟨_,_,rfl⟩

theorem low_distinct {m : RangeNode} {rest : List RangeNode} (nodup : (rangeBlocks (n :: rest)).Nodup)
    (ordered : n.Ordered) (ordered' : m.Ordered) (member : m ∈ rest) : n.rangeLow ≠ m.rangeLow := by
  intro same
  unfold RangeNode.Ordered at ordered ordered'
  have here : n.rangeLow ∈ n.blocks := by
    rw [RangeNode.blocks,mem_span,RangeNode.size]
    omega
  exact apart rfl nodup here (mem_rangeBlocks.mpr ⟨m,member,by omega,by omega⟩)

theorem allocInList_first {after : FreeList} {blocknr : Nat} (ordered : fl.Ordered) (nodup : fl.free.Nodup)
    (first : fl.firstNode = fl.blockFreeTree.head?.map (·.rangeLow))
    (alloc : mlfsAllocBlocksInFreeList fl atype num = (some blocknr,after)) :
    after.firstNode = after.blockFreeTree.head?.map (·.rangeLow) := by
  rcases allocInList_cases alloc with ⟨none,_⟩ | ⟨_,before,curr,rest,left,_,tree,_,rfl⟩
  · cases none
  rw [tree] at first
  cases before with
  | nil => simp [first]
  | cons n more =>
    -- The first node of the list changes only if the block comes out of it.
    have other : fl.firstNode ≠ some curr.rangeLow := by
      rw [FreeList.free,tree] at nodup
      have distinct := low_distinct nodup (ordered n (by simp [tree])) (ordered curr (by simp [tree])) (by simp)
      simpa [first] using distinct
    simpa [other] using first

theorem allocInList_tracked {after : FreeList} {blocknr : Nat}
    (single : atype = .tree → num = 1) (ordered : fl.Ordered) (nodup : fl.free.Nodup)
    (tracked : fl.Tracked) (alloc : mlfsAllocBlocksInFreeList fl atype num = (some blocknr,after)) :
    after.Tracked := by
  have lost := congrArg Multiset.card (allocInList_free single alloc)
  rw [Multiset.card_add,card_span] at lost
  have count := tracked.count
  have first := fun known => allocInList_first ordered nodup known alloc
  rcases allocInList_cases alloc with ⟨none,_⟩ | ⟨_,before,curr,rest,left,_,_,_,rfl⟩
  · cases none
  · exact ⟨by simp only; omega,tracked.first.imp (fun none => by simp [none]) first⟩

theorem findFreeSlot_some {low high : Nat} (nodes passed : List RangeNode)
    (clear : ∀ n ∈ nodes, n.rangeHigh < low ∨ high < n.rangeLow) :
    ∃ below above, mlfsFindFreeSlot low high passed nodes = some (below,above) := by
  induction nodes generalizing passed with
  | nil => exact ⟨passed,[],rfl⟩
  | cons node rest ih =>
    unfold mlfsFindFreeSlot
    split
    · exact ih (node :: passed) fun n member => clear n (mem_cons_of_mem node member)
    · rename_i notBelow
      rw [if_pos ((clear node (by simp)).resolve_left notBelow)]
      exact ⟨passed,node :: rest,rfl⟩

theorem FreeList.Ordered.sides {blocknr : Nat} (ordered : fl.Ordered) (asked : num ≠ 0)
    (clear : ∀ b ∈ span blocknr num, b ∉ fl.free) :
    ∀ n ∈ fl.blockFreeTree, n.rangeHigh < blocknr ∨ blocknr + num - 1 < n.rangeLow := by
  intro n member
  have range := ordered n member
  unfold RangeNode.Ordered at range
  -- An overlap would hold the larger of the two starts.
  refine Classical.byContradiction fun overlap => ?_
  refine clear (max blocknr n.rangeLow) (mem_span.mpr ?_) (mem_rangeBlocks.mpr ⟨n,member,?_⟩) <;> omega

theorem insertRange_first {low high : Nat} {below above : List RangeNode}
    (whole : below.reverse ++ above = fl.blockFreeTree) (ordered : fl.Ordered) (nodup : fl.free.Nodup)
    (first : fl.firstNode = fl.blockFreeTree.head?.map (·.rangeLow)) :
    (insertRange fl low high below above).firstNode =
      (insertRange fl low high below above).blockFreeTree.head?.map (·.rangeLow) := by
  rw [←whole] at first
  rcases below with _ | ⟨prev,earlier⟩
  · rcases above with _ | ⟨next,later⟩
    · rfl
    · simp only [insertRange]
      split
      · simp [first]
      · rfl
  · obtain ⟨n,more,shape⟩ : ∃ n more, (prev :: earlier).reverse = n :: more := by
      rw [reverse_cons]
      cases earlier.reverse with
      | nil => exact ⟨prev,[],rfl⟩
      | cons n more => exact ⟨n,more ++ [prev],rfl⟩
    -- The lowest node is `prev` or below it, and its start is kept.
    have start : ∀ (stop : Nat) (behind : List RangeNode),
        (earlier.reverse ++ ⟨prev.rangeLow,stop⟩ :: behind).head?.map (·.rangeLow) = some n.rangeLow := by
      intro stop behind
      rw [reverse_cons] at shape
      cases front : earlier.reverse <;> simp_all
    rw [shape] at first whole
    rcases above with _ | ⟨next,later⟩
    · simp only [insertRange,shape]
      split
      · rw [start]
        exact first
      · exact first
    · have kept : fl.firstNode ≠ some next.rangeLow := by
        rw [FreeList.free,←whole,cons_append] at nodup
        have distinct := low_distinct nodup (ordered n (by simp [←whole])) (ordered next (by simp [←whole])) (by simp)
        simpa [first] using distinct
      simp only [insertRange,shape,kept,if_false]
      repeat' split
      all_goals first | exact first | (rw [start]; exact first)

theorem insertRange_unnamed {low high : Nat} {below above : List RangeNode} (unnamed : fl.firstNode = none) :
    (insertRange fl low high below above).firstNode = none ∨ (insertRange fl low high below above).firstNode =
      (insertRange fl low high below above).blockFreeTree.head?.map (·.rangeLow) := by
  rcases below with _ | ⟨prev,earlier⟩ <;> rcases above with _ | ⟨next,later⟩ <;>
    simp only [insertRange,unnamed,reduceCtorEq,if_false] <;> (repeat' split) <;> simp

theorem freeInList_slot {blocknr : Nat} {below above : List RangeNode}
    (slot : mlfsFindFreeSlot blocknr (blocknr + num - 1) [] fl.blockFreeTree = some (below,above)) :
    freeInList fl blocknr num =
      some {insertRange fl blocknr (blocknr + num - 1) below above with numFreeBlocks := fl.numFreeBlocks + num} := by
  have same : (insertRange fl blocknr (blocknr + num - 1) below above).numFreeBlocks = fl.numFreeBlocks := by
    unfold insertRange
    split <;> (repeat' split) <;> rfl
  rw [freeInList,slot]
  dsimp only
  rw [same]

theorem freeInList_tracked {blocknr : Nat} (asked : num ≠ 0) (ordered : fl.Ordered)
    (nodup : fl.free.Nodup) (tracked : fl.Tracked)
    (clear : ∀ n ∈ fl.blockFreeTree, n.rangeHigh < blocknr ∨ blocknr + num - 1 < n.rangeLow) :
    ∃ after, freeInList fl blocknr num = some after ∧ after.Tracked := by
  obtain ⟨below,above,slot⟩ := findFreeSlot_some fl.blockFreeTree [] clear
  have whole : below.reverse ++ above = fl.blockFreeTree := by simpa using findFreeSlot_parts slot
  have freed := freeInList_slot slot
  refine ⟨_,freed,?_,tracked.first.elim insertRange_unnamed fun known => Or.inr (insertRange_first whole ordered nodup known)⟩
  have gained := congrArg Multiset.card (freeInList_free asked ordered freed).1
  rw [Multiset.card_add,card_span] at gained
  simp only [tracked.count]
  exact gained.symm

structure Working (sb : SuperBlock) (held : Multiset Nat) : Prop extends Balanced sb held where
  single : ∃ fl, sb.freeLists = [fl] ∧ fl.Tracked
  shared : sb.sharedFreeList.blockFreeTree = []
  lists : sb.perListBlocks = sb.numBlocks
  used : sb.usedBlocks = sb.reservedBlocks + held.card

def Room (sb : SuperBlock) (atype : AllocType) (num : Nat) : Prop :=
  num < sb.free.card ∧ (atype = .tree ∨ ∃ fl ∈ sb.freeLists, ∃ n ∈ fl.blockFreeTree, num ≤ n.size)

theorem single_free (lists : sb.freeLists = [fl])
    (shared : sb.sharedFreeList.blockFreeTree = []) : sb.free = fl.free := by
  rw [SuperBlock.free,lists,FreeList.free,shared]
  simp

theorem Working.newBlocks {held : Multiset Nat} (working : Working sb held) (asked : num ≠ 0) (single : atype = .tree → num = 1) (room : Room sb atype num) :
    ∃ block fl, mlfsNewBlocks sb num atype = (some block,{sb with freeLists := [fl]}) ∧ fl.Tracked := by
  obtain ⟨fl,lists,tracked⟩ := working.single
  have free := single_free lists working.shared
  obtain ⟨large,fits⟩ := room
  obtain ⟨tracked',first⟩ := findFirstNode_tracked tracked
  have tree := findFirstNode_tree fl
  have ordered : (findFirstNode fl).Ordered := by
    rw [FreeList.Ordered,tree]
    exact working.ordered.1 fl (by simp [lists])
  have nodup : (findFirstNode fl).free.Nodup := by
    rw [findFirstNode_free,←free]
    exact (Multiset.nodup_add.mp working.nodup).1
  have nonempty : (findFirstNode fl).blockFreeTree ≠ [] := by
    rw [free,FreeList.free] at large
    intro none
    rw [←tree,none] at large
    exact Nat.not_lt_zero num large
  -- A tree request takes what the last node has, a data request scans from the first node.
  obtain ⟨n,visited,fit⟩ : ∃ n ∈ (scanStart (findFirstNode fl) atype).2, num ≤ n.size := by
    cases atype with
    | data | dataLog =>
      obtain ⟨list,member,n,inside,fit⟩ := fits.resolve_left (by simp)
      cases mem_singleton.mp (lists ▸ member)
      obtain ⟨head,rest,shape⟩ := exists_cons_of_ne_nil nonempty
      rw [tree] at shape
      exact ⟨n,by simpa [scanStart,first,tree,shape] using inside,fit⟩
    | tree =>
      have last := List.getLast?_eq_some_getLast nonempty
      refine ⟨(findFirstNode fl).blockFreeTree.getLast nonempty,by simp [scanStart,last],?_⟩
      have order := ordered _ (List.getLast_mem nonempty)
      rw [RangeNode.Ordered] at order
      rw [single rfl,RangeNode.size]
      omega
  obtain ⟨block,after,alloc⟩ := allocInList_some visited fit
  have found : mlfsFindFreeList sb num = some 0 := by
    rw [mlfsFindFreeList,lists]
    simp [tracked.count,←free,large]
  have positive : block ≠ 0 := by
    rintro rfl
    have taken := allocInList_free single alloc
    rw [findFirstNode_free,←free] at taken
    refine working.positive ?_
    rw [taken,Multiset.mem_add,mem_span]
    exact Or.inr (by omega)
  refine ⟨block,after,?_,allocInList_tracked single ordered nodup tracked' alloc⟩
  rw [mlfsNewBlocks,if_neg asked,found,lists]
  simp [alloc,positive]

theorem Working.alloc (working : Working sb held) (asked : num ≠ 0) (single : atype = .tree → num = 1) (room : Room sb atype num) :
    ∃ block sb', mlfsExtAllocBlocks sb atype num = some (block,sb') ∧ Working sb' (held + span block num) := by
  obtain ⟨block,fl,alloc,tracked⟩ := working.newBlocks asked single room
  have done : mlfsExtAllocBlocks sb atype num = some (block,
      { sb with
        freeLists := [fl]
        sBlkBitmap := bitmapBitsSetRange sb.sBlkBitmap block num
        usedBlocks := sb.usedBlocks + num }) := by
    rw [mlfsExtAllocBlocks,allocTries,alloc]
  refine ⟨block,_,done,?_⟩
  have balanced := working.take (working.take_alloc single done)
  refine {balanced with single := ⟨fl,rfl,tracked⟩,shared := working.shared,lists := working.lists,used := ?_}
  simp only [working.used,Multiset.card_add,card_span]
  omega

theorem firstFit_none {nodes : List RangeNode} (small : ∀ n ∈ nodes, n.size < num) :
    firstFit num nodes = none := by
  induction nodes with
  | nil => rfl
  | cons curr rest ih =>
    rw [firstFit,if_pos (small curr (by simp)),ih fun n member => small n (mem_cons_of_mem curr member)]
    rfl

theorem allocTries_none (tries : Nat)
    (lists : sb.freeLists = [fl]) (small : ∀ n ∈ fl.blockFreeTree, n.size < num) :
    allocTries atype num tries sb = none := by
  induction tries generalizing sb fl with
  | zero => rfl
  | succ tries ih =>
    obtain ⟨fl',after,same⟩ : ∃ fl', mlfsNewBlocks sb num atype = (none,{sb with freeLists := [fl']}) ∧
        fl'.blockFreeTree = fl.blockFreeTree := by
      have unchanged : ({sb with freeLists := [fl]} : SuperBlock) = sb := by rw [←lists]
      unfold mlfsNewBlocks
      split
      · exact ⟨fl,by rw [unchanged],rfl⟩
      · rw [mlfsFindFreeList,lists]
        by_cases enough : num < fl.numFreeBlocks
        · have visited : ∀ n ∈ (scanStart (findFirstNode fl) atype).2, n.size < num := by
            intro n member
            refine small n ?_
            rw [←findFirstNode_tree fl,←scanStart_parts (findFirstNode fl) atype]
            exact mem_append.mpr (Or.inr member)
          refine ⟨(mlfsAllocBlocksInFreeList (findFirstNode fl) atype num).2,?_,?_⟩ <;>
            simp [mlfsAllocBlocksInFreeList,firstFit_none visited,findFirstNode_tree,enough]
        · exact ⟨fl,by simp [unchanged,enough],rfl⟩
    rw [allocTries,after]
    exact ih rfl (by rw [same]; exact small)

theorem Working.room_of_alloc {sb' : SuperBlock} {held : Multiset Nat} (working : Working sb held) {block : Nat} (alloc : mlfsExtAllocBlocks sb atype num = some (block,sb')) :
    Room sb atype num := by
  obtain ⟨fl,lists,tracked⟩ := working.single
  constructor
  · by_contra few
    have none : mlfsNewBlocks sb num atype = (none,sb) := by
      rw [single_free lists working.shared] at few
      simp [mlfsNewBlocks,mlfsFindFreeList,lists,tracked.count,few]
    simp [mlfsExtAllocBlocks,allocTries,none] at alloc
  · refine Or.inr ⟨fl,by simp [lists],?_⟩
    by_contra none
    rw [mlfsExtAllocBlocks,allocTries_none 3 lists fun n member =>
      Nat.lt_of_not_le fun large => none ⟨n,member,large⟩] at alloc
    cases alloc

theorem Working.give_back {block count : Nat} (asked : count ≠ 0)
    (working : Working sb (held + span block count)) :
    ∃ sb', mlfsFreeBlocks sb block count = some sb' ∧ Working sb' held := by
  obtain ⟨fl,lists,tracked⟩ := working.single
  have free := single_free lists working.shared
  have ordered : fl.Ordered := working.ordered.1 fl (by simp [lists])
  have nodup : fl.free.Nodup := by
    rw [←free]
    exact (Multiset.nodup_add.mp working.nodup).1
  have outside : ∀ b ∈ span block count, b ∉ fl.free := by
    intro b member
    rw [←free]
    exact working.held_not_free (Multiset.mem_add.mpr (Or.inr member))
  have clear := ordered.sides asked outside
  obtain ⟨after,freed,tracked'⟩ := freeInList_tracked asked ordered nodup tracked clear
  have inside : block < sb.numBlocks :=
    (working.mem.mp (Or.inr (Multiset.mem_add.mpr (Or.inr (by rw [mem_span]; omega))))).2
  have enough : count < sb.usedBlocks := by
    have used := working.used
    have reserved := working.reserved
    rw [Multiset.card_add,card_span] at used
    omega
  have done : mlfsFreeBlocks sb block count = some
      { sb with
        freeLists := [after]
        sBlkBitmap := bitmapBitsFree sb.sBlkBitmap block count
        usedBlocks := sb.usedBlocks - count } := by
    have place : block / sb.perListBlocks = 0 := by rw [working.lists,Nat.div_eq_of_lt inside]
    simp [mlfsFreeBlocks,mlfsFreeBlocksNode,asked,freed,enough,place,lists]
  refine ⟨_,done,?_⟩
  have balanced := working.give (freeBlocks_given working.ordered done)
  refine {balanced with single := ⟨after,rfl,tracked'⟩,shared := working.shared,lists := working.lists,used := ?_}
  have used := working.used
  rw [Multiset.card_add,card_span] at used
  simp only [used]
  omega

theorem Working.mark (working : Working sb held) (block : Nat) :
    Working (markBufferDirty sb block) held := by
  unfold markBufferDirty
  split
  · exact working
  · exact { working with }

def Account.Working (a : Account) : Prop := Balloc.Working a.sb (a.data + a.nodes)

theorem Move.working (move : Move phase a b) (working : a.Working) : b.Working := by
  cases move with
  | takeNode alloc =>
    obtain ⟨block,sb,done,after⟩ := Balloc.Working.alloc working (by simp) (fun _ => rfl)
      (Balloc.Working.room_of_alloc working alloc)
    rw [alloc] at done
    cases done
    simpa only [Account.Working,add_assoc,span_one] using after
  | dropNode freed =>
    rename_i sb sb' data nodes block
    have held : Balloc.Working sb (data + nodes + span block 1) := by
      simpa only [Account.Working,add_assoc,span_one] using working
    obtain ⟨sb₁,done,after⟩ := held.give_back (by simp)
    rw [freed] at done
    cases done
    exact after
  | dropData freed =>
    rename_i sb sb' data nodes block count
    have asked : count ≠ 0 := by
      rintro rfl
      simp [mlfsFreeBlocks,mlfsFreeBlocksNode] at freed
    have held : Balloc.Working sb (data + nodes + span block count) := by
      have moved := working
      simp only [Account.Working] at moved
      rwa [add_right_comm] at moved
    obtain ⟨sb₁,done,after⟩ := held.give_back asked
    rw [freed] at done
    cases done
    exact after
  | mark node => exact Balloc.Working.mark working _

theorem Moves.working (moves : Moves phase a b) (working : a.Working) : b.Working := by
  induction moves with
  | refl => exact working
  | tail _ move ih => exact move.working ih

theorem Moves.device (moves : Moves phase a b) (working : a.Working) :
    SameDevice a.sb b.sb := moves.sameDevice (Balloc.Working.toBalanced working)

theorem init_working {numBlocks reservedBlocks : Nat} (reserved : 0 < reservedBlocks)
    (space : reservedBlocks < numBlocks) : Working (initSuperBlock numBlocks reservedBlocks) 0 := by
  refine {init_balanced reserved space with single := ⟨_,rfl,?_,Or.inr rfl⟩,shared := rfl,lists := rfl,used := rfl}
  simp only [FreeList.free,rangeBlocks_cons,rangeBlocks_nil,add_zero,RangeNode.blocks,card_span,RangeNode.size]
  omega

end Assise.Balloc
