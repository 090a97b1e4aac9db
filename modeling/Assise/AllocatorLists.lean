import Assise.AllocatorRuns

-- The allocator with plain lists stands for the one with trees, whatever shapes these take, as long as only blocks that
-- are out come back.
namespace Assise.FreeTree

open List Option

open Balloc (RangeNode AllocType SuperBlock Lending)
open Lib.SearchTree Lib.Runs

variable {fl : FreeList} {num blocknr : Nat} {Home : Nat → Prop} {sb : SuperBlock} {s next : Allocator} {lending : Lending}

def FreeList.seen (fl : FreeList) : List RangeNode × Nat := (fl.nodes,fl.numFreeBlocks)

def listSeen (flat : Balloc.FreeList) : List RangeNode × Nat := (flat.blockFreeTree,flat.numFreeBlocks)

theorem eq_flat {flat : Balloc.FreeList} (neat : flat.Neat Home) (same : listSeen flat = fl.seen) : flat = fl.flat := by
  have first := neat.first
  have count := neat.count
  obtain ⟨nodes,firstNode,numBlocknode,numFreeBlocks⟩ := flat
  cases same
  exact congrArg₂ (Balloc.FreeList.mk fl.nodes · · fl.numFreeBlocks) first count

theorem alloc_flat (tidy : Tidy fl) (atype : AllocType) (num : Nat) :
    ∃ fl', mlfsAllocBlocksInFreeList fl atype num = ((Balloc.mlfsAllocBlocksInFreeList fl.flat atype num).1,fl') ∧ Tidy fl' ∧
      listSeen (Balloc.mlfsAllocBlocksInFreeList fl.flat atype num).2 = fl'.seen := by
  unfold Balloc.mlfsAllocBlocksInFreeList
  rcases scan_eq tidy atype num with ⟨missing,_,none_⟩ | ⟨small,curr,after,before,front,split,large,scanned,_,fit⟩
  · simp only [none_]
    exact ⟨_,alloc_missing missing,⟨tidy.ordered,tidy.first,tidy.count⟩,rfl⟩
  · obtain ⟨fl',done,tidy',listed,free⟩ := alloc_found tidy split large scanned
    refine ⟨fl',done.trans ?_,tidy',?_⟩ <;> simp only [fit,front,FreeList.seen,listed,free,taken]
    · split
      · rfl
      · cases atype <;> rfl
    · split
      · simp [listSeen,FreeList.flat]
      · cases atype <;> simp [listSeen,FreeList.flat]

-- The range returned lies in a gap between the nodes, so the search in the tree ends there as well.
theorem give_flat {flat : Balloc.FreeList} (tidy : Tidy fl) (neat : fl.flat.Neat Home) (asked : num ≠ 0)
    (given : Balloc.freeInList fl.flat blocknr num = some flat) :
    ∃ fl', freeInList fl blocknr num = some fl' ∧ Tidy fl' ∧ listSeen flat = fl'.seen := by
  cases slot : Balloc.mlfsFindFreeSlot blocknr (blocknr + num - 1) [] fl.flat.blockFreeTree with
  | none =>
    rw [Balloc.freeInList,slot] at given
    cases given
  | some parts =>
    obtain ⟨below,above⟩ := parts
    rw [Balloc.freeInList_slot slot] at given
    cases given
    obtain ⟨lower,upper⟩ := Balloc.findFreeSlot_sides neat.ordered neat.before (by simp) slot
    have whole : fl.blockFreeTree.listing = below.reverse ++ above := (Balloc.findFreeSlot_parts slot).symm
    have range := tidy.ordered
    unfold FreeList.nodes at range
    have sides : ∀ n ∈ fl.blockFreeTree.listing, n.rangeHigh < blocknr ∨ blocknr + num - 1 < n.rangeLow := fun n member =>
      (mem_append.mp (whole ▸ member)).imp (fun early => lower n (by simpa using early)) (upper n)
    have place : endBefore fl.blockFreeTree blocknr = below.reverse := by
      rw [endBefore,whole,takeWhile_append_of_pos (by simpa using lower)]
      cases above with
      | nil => simp
      | cons next later =>
        have starts := upper next (by simp)
        have ends := range next (by simp [whole])
        rw [takeWhile_cons_of_neg (by simp only [decide_eq_true_eq]; omega),append_nil]
    have found : mlfsFindFreeSlot fl.blockFreeTree blocknr (blocknr + num - 1) = some below.reverse.length := by
      rw [findFreeSlot_gap ⟨range,neat.before.imp fun gap => by unfold RangeNode.Before at gap; omega⟩,place,if_neg]
      · rintro ⟨_,n,member,above,overlaps⟩
        have side := sides n member
        have ends := range n member
        omega
      · rintro n member ⟨low,high⟩
        have side := sides n member
        omega
    obtain ⟨fl',inserted,listed,⟨ordered,first,count⟩,free⟩ := insertRange_merge tidy (by omega) found whole rfl
    refine ⟨{fl' with numFreeBlocks := fl'.numFreeBlocks + num},?_,⟨ordered,first,count⟩,?_⟩
    · rw [freeInList,found,bind_eq_bind,bind_some,inserted]
      rfl
    · have tree := Balloc.insertRange_tree fl.flat blocknr (blocknr + num - 1) below above
      exact congrArg₂ Prod.mk (tree.trans listed.symm) (by rw [free]; rfl)

structure Refines (s : Allocator) (sb : SuperBlock) : Prop where
  tidy : Each Tidy s
  lists : sb.freeLists.map listSeen = s.freeLists.map FreeList.seen
  shared : listSeen sb.sharedFreeList = s.sharedFreeList.seen
  per : sb.perListBlocks = s.perListBlocks

theorem Refines.found (refines : Refines s sb) (neat : sb.Neat) (id : Nat) :
    sb.freeLists[id]? = (s.freeLists[id]?).map FreeList.flat := by
  have same := congrArg (·[id]?) refines.lists
  simp only [getElem?_map] at same
  cases found : sb.freeLists[id]? with
  | none =>
    rw [found] at same
    rw [Option.map_eq_none_iff.mp same.symm]
    rfl
  | some flat =>
    rw [found] at same
    obtain ⟨fl,here,shown⟩ := map_eq_some_iff.mp same.symm
    rw [here,eq_flat (neat.lists id flat found) shown.symm]
    rfl

theorem Refines.set {flat : Balloc.FreeList} (refines : Refines s sb) (id : Nat) (tidy : Tidy fl) (same : listSeen flat = fl.seen) :
    Refines {s with freeLists := s.freeLists.set id fl} {sb with freeLists := sb.freeLists.set id flat} :=
  ⟨refines.tidy.set id tidy,by simp only [map_set,refines.lists,same],refines.shared,refines.per⟩

theorem Refines.newBlocks (refines : Refines s sb) (neat : sb.Neat) (num : Nat) (atype : AllocType) :
    (mlfsNewBlocks s num atype).1.toOption = (Balloc.mlfsNewBlocks sb num atype).1 ∧
      Refines (mlfsNewBlocks s num atype).2 (Balloc.mlfsNewBlocks sb num atype).2 := by
  unfold mlfsNewBlocks Balloc.mlfsNewBlocks
  split
  · exact ⟨rfl,refines⟩
  · have chosen : Balloc.mlfsFindFreeList sb num = mlfsFindFreeList s num := by
      have counters := congrArg (findIdx? fun seen => decide (num < seen.2)) refines.lists
      rwa [findIdx?_map,findIdx?_map] at counters
    rw [chosen]
    cases mlfsFindFreeList s num with
    | none => exact ⟨rfl,refines⟩
    | some id =>
      have found := refines.found neat id
      dsimp only
      cases here : s.freeLists[id]? with
      | none =>
        rw [here] at found
        simp only [found]
        exact ⟨rfl,refines⟩
      | some fl =>
        rw [here] at found
        have tidy := refines.tidy.1 fl (mem_of_getElem? here)
        obtain ⟨fl',alloc,tidy',same⟩ := alloc_flat tidy atype num
        simp only [found,map_some,findFirstNode_tidy tidy,Balloc.findFirstNode_neat (neat.lists id _ found),alloc]
        refine ⟨?_,refines.set id tidy' same⟩
        cases Option.filter (· ≠ 0) (Balloc.mlfsAllocBlocksInFreeList fl.flat atype num).1 <;> rfl

theorem Refines.freeBlocksNode {after : SuperBlock} (refines : Refines s sb) (neat : sb.Neat)
    (freed : Balloc.mlfsFreeBlocksNode sb blocknr num = some after) :
    ∃ s', mlfsFreeBlocksNode s blocknr num = (.ok (),s') ∧ Refines s' after := by
  unfold Balloc.mlfsFreeBlocksNode at freed
  unfold mlfsFreeBlocksNode Allocator.listOf Allocator.setList
  split at freed
  · cases freed
  · rename_i asked
    rw [if_neg asked]
    have found := refines.found neat (blocknr / s.perListBlocks)
    simp only [refines.per,found] at freed
    cases here : s.freeLists[blocknr / s.perListBlocks]? with
    | some fl =>
      rw [here] at freed found
      obtain ⟨flat,given,rfl⟩ := map_eq_some_iff.mp freed
      obtain ⟨fl',own,tidy,same⟩ := give_flat (refines.tidy.1 fl (mem_of_getElem? here)) (neat.lists _ _ found) asked given
      simp only [getD_some,own,if_pos (List.getElem?_eq_some_iff.mp here).1]
      have kept := refines.set (blocknr / s.perListBlocks) tidy same
      rw [refines.per] at kept
      exact ⟨_,rfl,kept⟩
    | none =>
      rw [here] at freed
      obtain ⟨flat,given,rfl⟩ := map_eq_some_iff.mp freed
      have flatten := eq_flat neat.shared refines.shared
      obtain ⟨fl',own,tidy,same⟩ := give_flat refines.tidy.2 (flatten ▸ neat.shared) asked (flatten ▸ given)
      simp only [getD_none,own,if_neg (Nat.not_lt.mpr (getElem?_eq_none_iff.mp here))]
      exact ⟨_,rfl,⟨refines.tidy.1,tidy⟩,refines.lists,same,rfl⟩

theorem rotated_seen {fl' : FreeList} {tree : NodeTree RangeNode} (rotated : rotateList fl tree = some fl') : fl'.seen = fl.seen := by
  unfold rotateList at rotated
  split at rotated
  · rename_i same
    cases rotated
    exact congrArg (·,fl.numFreeBlocks) same
  · cases rotated

theorem Refines.rotate {id : Nat} {tree : NodeTree RangeNode} (refines : Refines s sb)
    (stepped : step s (.rotate id tree) = some next) : Refines next sb := by
  have tidy := step_tidy refines.tidy stepped
  unfold step at stepped
  dsimp only at stepped
  split at stepped
  · rename_i fl found
    obtain ⟨fl',rotated,rfl⟩ := map_eq_some_iff.mp stepped
    obtain ⟨inside,rfl⟩ := List.getElem?_eq_some_iff.mp found
    refine ⟨tidy,?_,refines.shared,refines.per⟩
    simp only [map_set,rotated_seen rotated,refines.lists]
    rw [←getElem_map FreeList.seen (h:=by simpa using inside),set_getElem_self]
  · obtain ⟨fl',rotated,rfl⟩ := map_eq_some_iff.mp stepped
    exact ⟨tidy,refines.lists,refines.shared.trans (rotated_seen rotated).symm,refines.per⟩

-- What the allocator with lists does for an action: a new shape of a tree is nothing to it.
def follow (lending : Lending) : Action → Option Lending
  | .newBlocks num atype => lending.step (.newBlocks num atype)
  | .freeBlocksNode blocknr num => lending.step (.freeBlocksNode blocknr num)
  | .rotate .. => some lending

def Fair (lending : Lending) : Action → Prop
  | .newBlocks num atype => lending.Fair (.newBlocks num atype)
  | .freeBlocksNode blocknr num => lending.Fair (.freeBlocksNode blocknr num)
  | .rotate .. => True

theorem Refines.step {action : Action} (refines : Refines s lending.sb) (sound : lending.Sound) (fair : Fair lending action)
    (stepped : step s action = some next) :
    ∃ lending', follow lending action = some lending' ∧ Refines next lending'.sb ∧ lending'.Sound := by
  cases action with
  | newBlocks num atype =>
    obtain ⟨lending',taken,sound'⟩ := sound.step (show lending.Fair (.newBlocks num atype) from fair)
    refine ⟨lending',taken,?_,sound'⟩
    cases stepped
    have kept := (refines.newBlocks sound.ranges num atype).2
    unfold Lending.step at taken
    dsimp only at taken
    split at taken <;> rename_i answered <;> rw [answered] at kept <;> cases taken <;> exact kept
  | freeBlocksNode blocknr num =>
    obtain ⟨lending',taken,sound'⟩ := sound.step (show lending.Fair (.freeBlocksNode blocknr num) from fair)
    refine ⟨lending',taken,?_,sound'⟩
    cases stepped
    obtain ⟨after,given,rfl⟩ := map_eq_some_iff.mp taken
    obtain ⟨s',freed,kept⟩ := refines.freeBlocksNode sound.ranges given
    rw [freed]
    exact kept
  | rotate id tree => exact ⟨lending,rfl,refines.rotate stepped,sound⟩

theorem run_refines {final : Allocator} {actions : List Action} (refines : Refines s lending.sb) (sound : lending.Sound)
    (fair : Guarded follow Fair lending actions) (ran : run step s actions = some final) :
    ∃ lending', run follow lending actions = some lending' ∧ Refines final lending'.sb ∧ lending'.Sound := by
  induction actions generalizing s lending with
  | nil =>
    cases ran
    exact ⟨lending,rfl,refines,sound⟩
  | cons action rest ih =>
    obtain ⟨next,stepped,later⟩ := (run_cons step s final action rest).mp ran
    obtain ⟨middle,followed,refines',sound'⟩ := refines.step sound fair.1 stepped
    obtain ⟨lending',ran',last⟩ := ih refines' sound' (fair.tail followed) later
    exact ⟨lending',(run_cons ..).mpr ⟨middle,followed,ran'⟩,last⟩

theorem mlfsInitBlockmap_refines {numBlocks reservedBlocks nPartition : Nat} (room : reservedBlocks < numBlocks / nPartition) :
    Refines (mlfsInitBlockmap true numBlocks reservedBlocks nPartition)
      (Lending.mlfsInitBlockmap numBlocks reservedBlocks nPartition) := by
  refine ⟨(mlfsInitBlockmap_accurate room).tidy,?_,?_,rfl⟩
  · simp only [mlfsInitBlockmap,Lending.mlfsInitBlockmap,List.map_map]
    rfl
  · unfold mlfsInitBlockmap
    dsimp only
    split <;> rfl

theorem trees_answer_as_lists {numBlocks reservedBlocks nPartition : Nat} (room : reservedBlocks < numBlocks / nPartition)
    {actions : List Action} {final : Allocator}
    (fair : Guarded follow Fair ⟨Lending.mlfsInitBlockmap numBlocks reservedBlocks nPartition,0⟩ actions)
    (ran : run step (mlfsInitBlockmap true numBlocks reservedBlocks nPartition) actions = some final) :
    ∃ lending, run follow ⟨Lending.mlfsInitBlockmap numBlocks reservedBlocks nPartition,0⟩ actions = some lending ∧
      final.freeLists.map FreeList.nodes = lending.sb.freeLists.map Balloc.FreeList.blockFreeTree ∧
      ∀ num atype, (mlfsNewBlocks final num atype).1.toOption = (Balloc.mlfsNewBlocks lending.sb num atype).1 := by
  obtain ⟨lending,same,refines,sound⟩ := run_refines (mlfsInitBlockmap_refines room) (Lending.mlfsInitBlockmap_sound room) fair ran
  refine ⟨lending,same,?_,fun num atype => (refines.newBlocks sound.ranges num atype).1⟩
  have nodes := congrArg (List.map Prod.fst) refines.lists
  rw [List.map_map,List.map_map] at nodes
  exact nodes.symm

end Assise.FreeTree
