import Assise.FreeTree

-- The allocator along any sequence of requests and returns: what its counters say, and which requests are served.
namespace Assise.FreeTree

open List Option

open Balloc (RangeNode AllocType merge_facts left_joins right_meets rangeBlocks rangeBlocks_cons)
open Lib.SearchTree Lib.Runs

def total (nodes : List RangeNode) : Nat := (nodes.map RangeNode.size).sum

@[simp] theorem total_nil : total [] = 0 := rfl

@[simp] theorem total_cons (node : RangeNode) (rest : List RangeNode) : total (node :: rest) = node.size + total rest := rfl

@[simp] theorem total_append (left right : List RangeNode) : total (left ++ right) = total left + total right := by
  simp [total]

structure Tidy (fl : FreeList) : Prop where
  ordered : ∀ n ∈ fl.nodes, n.rangeLow ≤ n.rangeHigh
  first : fl.firstNode = if fl.nodes = [] then none else some 0
  count : fl.numBlocknode = fl.nodes.length

def visited (fl : FreeList) : AllocType → List RangeNode
  | .tree => fl.nodes.getLast?.toList
  | _ => fl.nodes

-- The same list without the shape of its tree.
def FreeList.flat (fl : FreeList) : Balloc.FreeList :=
  ⟨fl.nodes,fl.nodes.head?.map (·.rangeLow),fl.nodes.length,fl.numFreeBlocks⟩

theorem firstFit_flat (num i : Nat) (nodes : List RangeNode) :
    firstFit num i nodes = (Balloc.firstFit num nodes).map fun (small,curr,_) => (i + small.length,curr) := by
  induction nodes generalizing i with
  | nil => rfl
  | cons first rest ih =>
    unfold firstFit Balloc.firstFit
    split
    · rw [ih (i + 1)]
      cases Balloc.firstFit num rest with
      | none => rfl
      | some parts => simp [Nat.add_comm,Nat.add_left_comm]
    · rfl

theorem find_flat (num : Nat) (nodes : List RangeNode) :
    (nodes.find? fun n => decide (num ≤ n.size)) = (Balloc.firstFit num nodes).map fun (_,curr,_) => curr := by
  induction nodes with
  | nil => rfl
  | cons first rest ih =>
    unfold Balloc.firstFit
    split
    · rename_i small
      rw [find?_cons_of_neg (by simpa using small),ih,Option.map_map]
      rfl
    · rename_i large
      rw [find?_cons_of_pos (by simpa using large)]
      rfl

variable {fl : FreeList} {before after : List RangeNode} {curr : RangeNode} {num : Nat} {s next : Allocator} {P : FreeList → Prop}

theorem visited_flat (fl : FreeList) (atype : AllocType) : (Balloc.scanStart fl.flat atype).2 = visited fl atype := by
  cases atype with
  | tree => rfl
  | data | dataLog => cases shape : fl.nodes <;> simp [Balloc.scanStart,FreeList.flat,visited,shape]

theorem scan_flat (tidy : Tidy fl) (atype : AllocType) (num : Nat) :
    scan fl atype num = (Balloc.firstFit num (visited fl atype)).map fun (small,curr,_) =>
      (((Balloc.scanStart fl.flat atype).1 ++ small).length,curr) := by
  unfold scan
  cases atype with
  | tree =>
    rcases eq_nil_or_concat fl.nodes with empty | ⟨front,last,shape⟩
    · simp [scanStart,visited,Balloc.firstFit,empty]
    · simp [scanStart,visited,Balloc.scanStart,FreeList.flat,firstFit_flat,shape]
  | data | dataLog =>
    cases shape : fl.nodes with
    | nil => simp [scanStart,visited,Balloc.firstFit,tidy.first,shape]
    | cons n rest => simp [scanStart,visited,Balloc.scanStart,FreeList.flat,firstFit_flat,tidy.first,shape]

theorem scan_eq (tidy : Tidy fl) (atype : AllocType) (num : Nat) :
    scan fl atype num = none ∧ ((visited fl atype).find? fun n => decide (num ≤ n.size)) = none ∧
        Balloc.firstFit num (Balloc.scanStart fl.flat atype).2 = none ∨
      ∃ small curr after before, (Balloc.scanStart fl.flat atype).1 ++ small = before ∧ fl.nodes = before ++ curr :: after ∧
        num ≤ curr.size ∧ scan fl atype num = some (before.length,curr) ∧
        ((visited fl atype).find? fun n => decide (num ≤ n.size)) = some curr ∧
        Balloc.firstFit num (Balloc.scanStart fl.flat atype).2 = some (small,curr,after) := by
  have parts := Balloc.scanStart_parts fl.flat atype
  rw [visited_flat] at parts ⊢
  rw [scan_flat tidy,find_flat]
  cases fit : Balloc.firstFit num (visited fl atype) with
  | none => exact Or.inl ⟨rfl,rfl,rfl⟩
  | some found =>
    obtain ⟨small,curr,after⟩ := found
    obtain ⟨split,large⟩ := Balloc.firstFit_parts fit
    rw [split,←append_assoc] at parts
    exact Or.inr ⟨small,curr,after,_,rfl,parts.symm,large,rfl,rfl,rfl⟩

theorem findFirstNode_tidy (tidy : Tidy fl) : findFirstNode fl = fl := by
  unfold findFirstNode
  split
  · rw [←tidy.first]
  · rfl

theorem tidy_of {nodes : List RangeNode} (listed : fl.nodes = nodes)
    (ordered : ∀ n ∈ nodes, n.rangeLow ≤ n.rangeHigh) (first : fl.firstNode = if nodes = [] then none else some 0)
    (count : fl.numBlocknode = nodes.length) : Tidy fl := by
  subst listed
  exact ⟨ordered,first,count⟩

structure Middle (fl : FreeList) (before : List RangeNode) (curr : RangeNode) (after : List RangeNode) : Prop where
  split : fl.nodes = before ++ curr :: after
  own : curr.rangeLow ≤ curr.rangeHigh
  others : ∀ n ∈ before ++ after, n.rangeLow ≤ n.rangeHigh
  first : fl.firstNode = some 0
  count : fl.numBlocknode = before.length + 1 + after.length

theorem Tidy.middle (tidy : Tidy fl)
    (split : fl.nodes = before ++ curr :: after) : Middle fl before curr after := by
  refine ⟨split,tidy.ordered curr (by rw [split]; simp),fun n member => tidy.ordered n ?_,?_,?_⟩
  · rw [split]
    rcases mem_append.mp member with early | late
    · simp [early]
    · simp [late]
  · rw [tidy.first,if_neg (by rw [split]; simp)]
  · rw [tidy.count,split]
    simp only [length_append,length_cons]
    omega

theorem Middle.replace {after : List RangeNode} {new : RangeNode}
    (middle : Middle fl before curr after) (fl' : FreeList) (listed : fl'.nodes = before ++ new :: after)
    (order : new.rangeLow ≤ new.rangeHigh) (first : fl'.firstNode = fl.firstNode)
    (count : fl'.numBlocknode = fl.numBlocknode) : Tidy fl' := by
  refine tidy_of listed (fun n member => ?_) ?_ ?_
  · rcases mem_append.mp member with early | late
    · exact middle.others n (mem_append_left after early)
    · rcases mem_cons.mp late with rfl | late
      · exact order
      · exact middle.others n (mem_append_right before late)
  · rw [first,middle.first,if_neg (by simp)]
  · rw [count,middle.count,length_append,length_cons]
    omega

def taken (curr : RangeNode) (atype : AllocType) (num : Nat) : Nat × List RangeNode :=
  if num = curr.size then (curr.rangeLow,[])
  else match atype with
    | .tree => (curr.rangeHigh,[{curr with rangeHigh := curr.rangeHigh - num}])
    | _ => (curr.rangeLow,[{curr with rangeLow := curr.rangeLow + num}])

theorem taken_total (atype : AllocType) (large : num ≤ curr.size) :
    total (taken curr atype num).2 + num = curr.size := by
  unfold taken
  unfold RangeNode.size at *
  split
  · simp only [total_nil]
    omega
  · cases atype <;> (simp only [total_cons,total_nil,RangeNode.size]; omega)

theorem taken_ordered (atype : AllocType) (large : num ≤ curr.size)
    (n : RangeNode) (member : n ∈ (taken curr atype num).2) : n.rangeLow ≤ n.rangeHigh := by
  unfold taken at member
  unfold RangeNode.size at *
  split at member
  · cases member
  · cases atype <;> (cases mem_singleton.mp member; dsimp only; omega)

theorem taken_zero (atype : AllocType) (asked : 0 < num) (large : num ≤ curr.size) :
    (taken curr atype num).1 = 0 ↔ curr.rangeLow = 0 ∧ (atype = .tree → num = curr.size) := by
  unfold taken
  by_cases whole : num = curr.size
  · simp [whole]
  · rw [if_neg whole]
    cases atype with
    | tree =>
      unfold RangeNode.size at *
      simp only [whole,forall_const,and_false,iff_false]
      omega
    | data | dataLog => simp

theorem alloc_found {atype : AllocType}
    (tidy : Tidy fl) (split : fl.nodes = before ++ curr :: after) (large : num ≤ curr.size)
    (found : scan fl atype num = some (before.length,curr)) :
    ∃ fl', mlfsAllocBlocksInFreeList fl atype num = (some (taken curr atype num).1,fl') ∧ Tidy fl' ∧
      fl'.nodes = before ++ (taken curr atype num).2 ++ after ∧ fl'.numFreeBlocks = fl.numFreeBlocks - num := by
  have middle := tidy.middle split
  unfold mlfsAllocBlocksInFreeList
  rw [found]
  dsimp only
  by_cases whole : num = curr.size
  · have rest : taken curr atype num = (curr.rangeLow,[]) := if_pos whole
    rw [if_pos whole,rest,append_nil]
    refine ⟨_,rfl,tidy_of (NodeTree.eraseAt_split split) middle.others ?_ ?_,NodeTree.eraseAt_split split,rfl⟩
    · dsimp only
      rw [middle.first,split]
      cases before with
      | nil => cases after <;> simp
      | cons a more => simp [afterErase]
    · dsimp only
      rw [middle.count,length_append]
      omega
  · have ordered := taken_ordered atype large
    rw [if_neg whole]
    unfold taken at ordered ⊢
    rw [if_neg whole] at ordered ⊢
    cases atype with
    | tree | data | dataLog =>
      refine ⟨_,rfl,middle.replace _ (NodeTree.modifyAt_split _ split) (ordered _ (by simp)) rfl rfl,?_,rfl⟩
      rw [append_assoc]
      exact NodeTree.modifyAt_split _ split

theorem alloc_missing {atype : AllocType} (missing : scan fl atype num = none) :
    mlfsAllocBlocksInFreeList fl atype num = (none,{fl with numFreeBlocks := fl.numFreeBlocks - num}) := by
  rw [mlfsAllocBlocksInFreeList,missing]

theorem merge_ne_nil (low high : Nat) (before behind : List RangeNode) : Balloc.merge low high before behind ≠ [] := by
  unfold Balloc.merge
  split <;> simp

theorem card_rangeBlocks (nodes : List RangeNode) : (rangeBlocks nodes).card = total nodes := by
  induction nodes with
  | nil => rfl
  | cons node rest ih => rw [rangeBlocks_cons,Multiset.card_add,ih,total_cons,RangeNode.blocks,Lib.Spans.card_span]

theorem insertRange_merge {low high k : Nat} {behind : List RangeNode} (tidy : Tidy fl)
    (range : low ≤ high) (slot : mlfsFindFreeSlot fl.blockFreeTree low high = some k)
    (parts : fl.nodes = before ++ behind) (place : before.length = k) :
    ∃ fl', insertRange fl k low high = some fl' ∧ fl'.nodes = Balloc.merge low high before behind ∧ Tidy fl' ∧
      fl'.numFreeBlocks = fl.numFreeBlocks := by
  have added := (insertRangeNode_slot tidy.ordered range slot).1
  have early : fl.nodes.take k = before := by rw [parts,←place,take_left]
  have late : fl.nodes.drop k = behind := by rw [parts,←place,drop_left]
  have facts := merge_facts range (parts ▸ tidy.ordered)
  have rest := merge_ne_nil low high before behind
  unfold insertRange
  simp only [early,late]
  unfold Balloc.merge at facts rest ⊢
  split
  · -- `fits the hole`
    rename_i prev next left right
    simp only [left,right] at facts rest ⊢
    obtain ⟨front,rfl,_⟩ := left_joins left
    obtain ⟨more,rfl,_⟩ := right_meets right
    have position : k - 1 = front.length := by simp at place; omega
    have erased : (fl.blockFreeTree.eraseAt k).listing = front ++ prev :: more := by
      have shape := NodeTree.eraseAt_split parts
      rw [place] at shape
      simpa using shape
    have filled : (fillHole fl k next).nodes = (front ++ [prev]).dropLast ++ ⟨prev.rangeLow,next.rangeHigh⟩ :: (next :: more).tail := by
      rw [fillHole,position,dropLast_concat,tail_cons]
      exact NodeTree.modifyAt_split _ erased
    have middle := tidy.middle (show fl.nodes = front ++ prev :: (next :: more) by simpa using parts)
    refine ⟨_,rfl,filled,tidy_of filled facts.1 ?_ ?_,rfl⟩
    · simp only [fillHole,middle.first,afterErase,map_some]
      rw [if_neg (by omega),if_neg rest]
    · simp only [fillHole,middle.count,length_append,length_cons,dropLast_concat,tail_cons]
      omega
  · -- `Aligns left`
    rename_i prev left right
    simp only [left,right] at facts rest ⊢
    obtain ⟨front,rfl,joins⟩ := left_joins left
    have position : k - 1 = front.length := by simp at place; omega
    have length : prev.rangeHigh + (high + 1 - low) = high := by omega
    have middle := tidy.middle (show fl.nodes = front ++ prev :: behind by simpa using parts)
    have listed : (alignLeft fl k (high + 1 - low)).nodes = front ++ ⟨prev.rangeLow,high⟩ :: behind := by
      rw [alignLeft,position]
      have shape := NodeTree.modifyAt_split (fun prev : RangeNode => {prev with rangeHigh := prev.rangeHigh + (high + 1 - low)}) middle.split
      rwa [length] at shape
    rw [dropLast_concat] at facts ⊢
    exact ⟨_,rfl,listed,middle.replace _ listed (facts.1 _ (by simp)) rfl rfl,rfl⟩
  · -- `Aligns right`
    rename_i next left right
    simp only [left,right] at facts rest ⊢
    obtain ⟨more,rfl,meets⟩ := right_meets right
    have length : next.rangeLow - (high + 1 - low) = low := by omega
    have middle := tidy.middle parts
    have listed : (alignRight fl k (high + 1 - low)).nodes = before ++ ⟨low,next.rangeHigh⟩ :: more := by
      rw [alignRight,←place]
      have shape := NodeTree.modifyAt_split (fun next : RangeNode => {next with rangeLow := next.rangeLow - (high + 1 - low)}) middle.split
      rwa [length] at shape
    exact ⟨_,rfl,listed,middle.replace _ listed (facts.1 _ (by simp)) rfl rfl,rfl⟩
  · -- `Aligns somewhere in the middle`
    rename_i left right
    simp only [left,right] at facts rest ⊢
    have listed : (fl.blockFreeTree.insertAt ⟨low,high⟩ k).listing = before ++ ⟨low,high⟩ :: behind := by
      rw [←place]
      exact NodeTree.insertAt_split _ parts
    rw [addNode,added,map_some]
    refine ⟨_,rfl,listed,tidy_of listed facts.1 ?_ ?_,rfl⟩
    · rw [if_neg rest]
      dsimp only
      split
      · rfl
      · rename_i behindFirst
        have filled : fl.nodes ≠ [] := by
          rw [parts]
          intro none
          rw [(append_eq_nil_iff.mp none).1] at place
          exact behindFirst place.symm
        rw [tidy.first,if_neg filled]
        simp [afterInsert,behindFirst]
    · dsimp only
      rw [tidy.count,parts]
      simp only [length_append,length_cons]
      omega

theorem free_tidy {fl' : FreeList} {blocknr : Nat} (tidy : Tidy fl) (asked : 0 < num)
    (freed : freeInList fl blocknr num = some fl') :
    Tidy fl' ∧ total fl'.nodes = total fl.nodes + num ∧ fl'.numFreeBlocks = fl.numFreeBlocks + num := by
  unfold freeInList at freed
  obtain ⟨k,slot,rest⟩ := bind_eq_some_iff.mp freed
  have range : blocknr ≤ blocknr + num - 1 := by omega
  have inside := (insertRangeNode_slot tidy.ordered range slot).2
  have parts : fl.nodes = fl.nodes.take k ++ fl.nodes.drop k := (take_append_drop k fl.nodes).symm
  have place : (fl.nodes.take k).length = k := by
    rw [length_take,FreeList.nodes,NodeTree.length_listing]
    omega
  obtain ⟨fl₁,inserted,listed,⟨ordered,first,count⟩,free⟩ := insertRange_merge tidy range slot parts place
  obtain ⟨_,same,last⟩ := bind_eq_some_iff.mp rest
  rw [inserted] at same
  cases same
  cases last
  refine ⟨⟨ordered,first,count⟩,?_,by rw [free]⟩
  change total fl₁.nodes = _
  rw [listed,←card_rangeBlocks,(merge_facts range (parts ▸ tidy.ordered)).2,←parts,Multiset.card_add,card_rangeBlocks,
    Lib.Spans.card_span]
  omega

-- A node the list looks at is large enough, and what it hands out of the first such node does not start at block 0.
def Fits (fl : FreeList) (atype : AllocType) (num : Nat) : Prop :=
  ∃ curr, ((visited fl atype).find? fun n => decide (num ≤ n.size)) = some curr ∧
    ¬ (curr.rangeLow = 0 ∧ (atype = .tree → num = curr.size))

instance (fl : FreeList) (atype : AllocType) (num : Nat) : Decidable (Fits fl atype num) :=
  match found : (visited fl atype).find? fun n => decide (num ≤ n.size) with
  | none => .isFalse fun fits => by
    obtain ⟨curr,here,_⟩ := fits
    rw [found] at here
    cases here
  | some curr => decidable_of_iff (¬ (curr.rangeLow = 0 ∧ (atype = .tree → num = curr.size))) (by simp [Fits,found])

def Each (P : FreeList → Prop) (s : Allocator) : Prop := (∀ fl ∈ s.freeLists, P fl) ∧ P s.sharedFreeList

theorem Each.set (each : Each P s) (id : Nat) (new : P fl) :
    Each P {s with freeLists := s.freeLists.set id fl} := by
  refine ⟨fun other member => ?_,each.2⟩
  rcases mem_or_eq_of_mem_set member with old | rfl
  · exact each.1 other old
  · exact new

theorem Each.listOf (each : Each P s) (blocknr : Nat) : P (s.listOf blocknr) := by
  unfold Allocator.listOf
  cases found : s.freeLists[blocknr / s.perListBlocks]? with
  | none => exact each.2
  | some fl => exact each.1 fl (mem_of_getElem? found)

theorem Each.setList (each : Each P s) (blocknr : Nat) (new : P fl) :
    Each P (s.setList blocknr fl) := by
  unfold Allocator.setList
  split
  · exact each.set _ new
  · exact ⟨each.1,new⟩

structure Accurate (fl : FreeList) : Prop extends Tidy fl where
  known : fl.numFreeBlocks = total fl.nodes

inductive Served (s : Allocator) (num : Nat) (atype : AllocType) : Except Errno Nat × Allocator → Prop where
  | handed (id blocknr : Nat) (fl fl' : FreeList) (chosen : mlfsFindFreeList s num = some id) (found : s.freeLists[id]? = some fl)
      (fits : Fits fl atype num) (tidy : Tidy fl') (sum : total fl'.nodes + num = total fl.nodes)
      (free : fl'.numFreeBlocks = fl.numFreeBlocks - num) :
      Served s num atype (.ok blocknr,{s with freeLists := s.freeLists.set id fl'})
  | refused (id : Nat) (fl fl' : FreeList) (chosen : mlfsFindFreeList s num = some id) (found : s.freeLists[id]? = some fl)
      (fits : ¬ Fits fl atype num) (tidy : Tidy fl') (free : fl'.numFreeBlocks = fl.numFreeBlocks - num) :
      Served s num atype (.error .enospc,{s with freeLists := s.freeLists.set id fl'})
  | full (none_ : mlfsFindFreeList s num = none) : Served s num atype (.error .enospc,s)

theorem findFreeList_some {id : Nat} (chosen : mlfsFindFreeList s num = some id) :
    ∃ fl, s.freeLists[id]? = some fl ∧ num < fl.numFreeBlocks := by
  obtain ⟨inside,more,_⟩ := findIdx?_eq_some_iff_getElem.mp chosen
  exact ⟨s.freeLists[id],getElem?_eq_getElem inside,by simpa using more⟩

theorem newBlocks_served (tidy : Each Tidy s) (asked : 0 < num) (atype : AllocType) :
    Served s num atype (mlfsNewBlocks s num atype) := by
  unfold mlfsNewBlocks
  rw [if_neg (Nat.ne_of_gt asked)]
  cases chosen : mlfsFindFreeList s num with
  | none => exact .full chosen
  | some id =>
    obtain ⟨fl,found,_⟩ := findFreeList_some chosen
    have own := tidy.1 fl (mem_of_getElem? found)
    simp only [found,findFirstNode_tidy own]
    rcases scan_eq own atype num with ⟨missing,none_,_⟩ | ⟨_,curr,after,before,_,split,large,scanned,first,_⟩
    · rw [alloc_missing missing]
      refine .refused id fl _ chosen found ?_ ⟨own.ordered,own.first,own.count⟩ rfl
      rintro ⟨curr,here,_⟩
      rw [none_] at here
      cases here
    · obtain ⟨fl',done,tidy',listed,free⟩ := alloc_found own split large scanned
      have sum : total fl'.nodes + num = total fl.nodes := by
        have left := taken_total atype large
        rw [listed,split]
        simp only [total_append,total_cons]
        omega
      have zero := taken_zero atype asked large
      rw [done]
      dsimp only
      generalize (taken curr atype num).1 = blocknr at zero
      by_cases start : blocknr = 0
      · rw [filter_some,if_neg (by simp [start])]
        refine .refused id fl fl' chosen found ?_ tidy' free
        rintro ⟨other,here,nonzero⟩
        rw [first] at here
        cases here
        exact nonzero (zero.mp start)
      · rw [filter_some,if_pos (by simp [start])]
        exact .handed id blocknr fl fl' chosen found ⟨curr,first,fun both => start (zero.mpr both)⟩ tidy' sum free

theorem freeBlocksNode_parts (tidy : Each Tidy s) (blocknr num : Nat) :
    mlfsFreeBlocksNode s blocknr num = (.error .einval,s) ∨
      ∃ fl', mlfsFreeBlocksNode s blocknr num = (.ok (),s.setList blocknr fl') ∧ Tidy fl' ∧
        total fl'.nodes = total (s.listOf blocknr).nodes + num ∧
        fl'.numFreeBlocks = (s.listOf blocknr).numFreeBlocks + num := by
  unfold mlfsFreeBlocksNode
  by_cases none_ : num = 0
  · exact Or.inl (if_pos none_)
  · rw [if_neg none_]
    cases freed : freeInList (s.listOf blocknr) blocknr num with
    | none => exact Or.inl rfl
    | some fl' => exact Or.inr ⟨fl',rfl,free_tidy (tidy.listOf blocknr) (Nat.pos_of_ne_zero none_) freed⟩

-- Between requests and returns a tree may take another shape (`rb_insert_color`, `rb_erase`); `id` past the partitions
-- is the shared list.
inductive Action where
  | newBlocks (num : Nat) (atype : AllocType)
  | freeBlocksNode (blocknr num : Nat)
  | rotate (id : Nat) (tree : NodeTree RangeNode)
deriving DecidableEq, Repr

def rotateList (fl : FreeList) (tree : NodeTree RangeNode) : Option FreeList :=
  if tree.listing = fl.nodes then some {fl with blockFreeTree := tree} else none

def step (s : Allocator) : Action → Option Allocator
  | .newBlocks num atype => some (mlfsNewBlocks s num atype).2
  | .freeBlocksNode blocknr num => some (mlfsFreeBlocksNode s blocknr num).2
  | .rotate id tree =>
    match s.freeLists[id]? with
    | some fl => (rotateList fl tree).map fun fl => {s with freeLists := s.freeLists.set id fl}
    | none => (rotateList s.sharedFreeList tree).map fun fl => {s with sharedFreeList := fl}

-- A request does not fail once a list has been chosen: the first list with more than `num` free blocks can serve it.
def Careful (s : Allocator) : Action → Prop
  | .newBlocks num atype => num = 0 ∨ ∀ id fl, mlfsFindFreeList s num = some id → s.freeLists[id]? = some fl → Fits fl atype num
  | .freeBlocksNode .. | .rotate .. => True

theorem Tidy.rotated {fl' : FreeList} {tree : NodeTree RangeNode} (tidy : Tidy fl) (rotated : rotateList fl tree = some fl') :
    Tidy fl' ∧ total fl'.nodes = total fl.nodes ∧ fl'.numFreeBlocks = fl.numFreeBlocks := by
  unfold rotateList at rotated
  split at rotated
  · rename_i same
    cases rotated
    have listed : ({fl with blockFreeTree := tree} : FreeList).nodes = fl.nodes := same
    exact ⟨tidy_of listed tidy.ordered tidy.first tidy.count,by rw [listed],rfl⟩
  · cases rotated

theorem step_rotate {id : Nat} {tree : NodeTree RangeNode} (each : Each P s)
    (keeps : ∀ fl fl', P fl → rotateList fl tree = some fl' → P fl') (stepped : step s (.rotate id tree) = some next) :
    Each P next := by
  unfold step at stepped
  dsimp only at stepped
  split at stepped
  · rename_i fl found
    obtain ⟨fl',rotated,same⟩ := map_eq_some_iff.mp stepped
    cases same
    exact each.set id (keeps fl fl' (each.1 fl (mem_of_getElem? found)) rotated)
  · obtain ⟨fl',rotated,same⟩ := map_eq_some_iff.mp stepped
    cases same
    exact ⟨each.1,keeps _ fl' each.2 rotated⟩

theorem Each.tidy (each : Each Accurate s) : Each Tidy s :=
  ⟨fun fl member => (each.1 fl member).toTidy,each.2.toTidy⟩

theorem step_tidy {action : Action} (tidy : Each Tidy s) (stepped : step s action = some next) :
    Each Tidy next := by
  cases action with
  | newBlocks num atype =>
    cases stepped
    rcases Nat.eq_zero_or_pos num with rfl | asked
    · exact tidy
    · generalize result : mlfsNewBlocks s num atype = r
      have served := newBlocks_served tidy asked atype
      rw [result] at served
      cases served with
      | handed id blocknr fl fl' _ _ _ own => exact tidy.set id own
      | refused id fl fl' _ _ _ own => exact tidy.set id own
      | full _ => exact tidy
  | freeBlocksNode blocknr num =>
    cases stepped
    rcases freeBlocksNode_parts tidy blocknr num with same | ⟨fl',freed,own,_⟩
    · rw [same]
      exact tidy
    · rw [freed]
      exact tidy.setList blocknr own
  | rotate id tree => exact step_rotate tidy (fun fl fl' own rotated => (own.rotated rotated).1) stepped

theorem step_accurate {action : Action} (accurate : Each Accurate s) (careful : Careful s action)
    (stepped : step s action = some next) : Each Accurate next := by
  cases action with
  | newBlocks num atype =>
    cases stepped
    rcases Nat.eq_zero_or_pos num with rfl | asked
    · exact accurate
    · have fits := careful.resolve_left (Nat.ne_of_gt asked)
      generalize result : mlfsNewBlocks s num atype = r
      have served := newBlocks_served accurate.tidy asked atype
      rw [result] at served
      cases served with
      | handed id blocknr fl fl' chosen found _ own sum free =>
        obtain ⟨_,found',more⟩ := findFreeList_some chosen
        rw [found] at found'
        cases found'
        have known := (accurate.1 fl (mem_of_getElem? found)).known
        exact accurate.set id ⟨own,by omega⟩
      | refused id fl fl' chosen found misfit => exact absurd (fits id fl chosen found) misfit
      | full _ => exact accurate
  | freeBlocksNode blocknr num =>
    cases stepped
    rcases freeBlocksNode_parts accurate.tidy blocknr num with same | ⟨fl',freed,own,sum,free⟩
    · rw [same]
      exact accurate
    · rw [freed]
      have known := (accurate.listOf blocknr).known
      exact accurate.setList blocknr ⟨own,by omega⟩
  | rotate id tree =>
    refine step_rotate accurate (fun fl fl' own rotated => ?_) stepped
    obtain ⟨tidy,sum,free⟩ := own.toTidy.rotated rotated
    exact ⟨tidy,by rw [free,sum,own.known]⟩

theorem run_tidy {final : Allocator} {actions : List Action} (tidy : Each Tidy s) (ran : run step s actions = some final) :
    Each Tidy final :=
  invariant_run step (fun _ _ => True) (Each Tidy) (fun _ _ _ tidy _ stepped => step_tidy tidy stepped) s final actions tidy
    (guarded_true step s actions) ran

theorem refusal_unchanged_iff (tidy : Each Tidy s) (num : Nat) (atype : AllocType) :
    ((mlfsNewBlocks s num atype).1 = .error .enospc → (mlfsNewBlocks s num atype).2 = s) ↔
      Careful s (.newBlocks num atype) := by
  rcases Nat.eq_zero_or_pos num with rfl | asked
  · exact iff_of_true (fun failed => by cases failed) (Or.inl rfl)
  · generalize result : mlfsNewBlocks s num atype = r
    have served := newBlocks_served tidy asked atype
    rw [result] at served
    cases served with
    | handed id blocknr fl fl' chosen found fits =>
      refine iff_of_true (fun failed => by cases failed) (Or.inr fun id' other chosen' found' => ?_)
      rw [chosen] at chosen'
      cases chosen'
      rw [found] at found'
      cases found'
      exact fits
    | refused id fl fl' chosen found misfit _ free =>
      refine iff_of_false (fun unchanged => ?_) fun careful => ?_
      · obtain ⟨other,found',more⟩ := findFreeList_some chosen
        rw [found] at found'
        cases found'
        have same := congrArg Allocator.freeLists (unchanged rfl)
        have inside := (List.getElem?_eq_some_iff.mp found).1
        have here := congrArg (·[id]?) same
        simp only [getElem?_set_self inside,found,Option.some.injEq] at here
        rw [here] at free
        omega
      · exact misfit ((careful.resolve_left (Nat.ne_of_gt asked)) id fl chosen found)
    | full none_ =>
      refine iff_of_true (fun _ => rfl) (Or.inr fun id fl chosen => ?_)
      rw [none_] at chosen
      cases chosen

theorem enospc_and_counters (s : Allocator) (start : Each Accurate s) (actions : List Action) :
    (∀ final, run step s actions = some final → ∀ num atype,
      ((mlfsNewBlocks final num atype).1 = .error .enospc → (mlfsNewBlocks final num atype).2 = final) ↔
        Careful final (.newBlocks num atype)) ∧
    (Guarded step Careful s actions → ∀ final, run step s actions = some final → Each Accurate final) :=
  ⟨fun _ ran num atype => refusal_unchanged_iff (run_tidy start.tidy ran) num atype,
    fun guarded final ran => invariant_run step Careful (Each Accurate)
      (fun _ _ _ accurate careful stepped => step_accurate accurate careful stepped) s final actions start guarded ran⟩

theorem mlfsInitBlockmap_accurate {numBlocks reservedBlocks nPartition : Nat}
    (room : reservedBlocks < numBlocks / nPartition) : Each Accurate (mlfsInitBlockmap true numBlocks reservedBlocks nPartition) := by
  refine ⟨fun fl member => ?_,?_⟩
  · obtain ⟨i,_,rfl⟩ := mem_map.mp member
    generalize numBlocks / nPartition = per at room
    have start : (if i = 0 then reservedBlocks else 0) < per := by split <;> omega
    simp only [initList,if_true]
    generalize (if i = 0 then reservedBlocks else 0) = used at start
    refine ⟨⟨fun n only => ?_,rfl,rfl⟩,?_⟩
    · cases mem_singleton.mp only
      dsimp only
      omega
    · simp only [FreeList.nodes,NodeTree.listing,nil_append,total_cons,total_nil,RangeNode.size]
      omega
  · unfold mlfsInitBlockmap
    dsimp only
    split <;> exact ⟨⟨fun _ none => absurd none not_mem_nil,rfl,rfl⟩,rfl⟩

instance (s : Allocator) (action : Action) : Decidable (Careful s action) :=
  match action with
  | .newBlocks num atype =>
    decidable_of_iff (num = 0 ∨ (mlfsFindFreeList s num).all fun id => (s.freeLists[id]?).all fun fl => decide (Fits fl atype num))
      (by
        simp only [Careful,Option.all_eq_true,decide_eq_true_eq]
        exact or_congr_right ⟨fun all id fl chosen found => all id chosen fl found,
          fun all id chosen fl found => all id fl chosen found⟩)
  | .freeBlocksNode .. | .rotate .. => .isTrue trivial

theorem enospc_and_counters_two_lists : ∃ final,
    run step (mlfsInitBlockmap true 40 3 2) [.newBlocks 5 .data,.newBlocks 18 .data,.freeBlocksNode 3 2,.freeBlocksNode 4 9,
      .newBlocks 1 .tree] = some final ∧ Each Accurate final :=
  ⟨_,rfl,(enospc_and_counters (mlfsInitBlockmap true 40 3 2) (mlfsInitBlockmap_accurate (by decide))
    [.newBlocks 5 .data,.newBlocks 18 .data,.freeBlocksNode 3 2,.freeBlocksNode 4 9,.newBlocks 1 .tree]).2 (by decide) _ rfl⟩

-- Blocks 10 to 39 and 70 to 99 are free, 40 are asked for: the counter says 60, so the list is chosen, and then says
-- 20.
theorem refused_request_lowers_counter : ∃ s₁ s₂,
    run step (mlfsInitBlockmap true 100 10 1) [.newBlocks 30 .data,.newBlocks 30 .data,.freeBlocksNode 10 30] = some s₁ ∧
    s₁.freeLists.map FreeList.nodes = [[⟨10,39⟩,⟨70,99⟩]] ∧ s₁.freeLists.map FreeList.numFreeBlocks = [60] ∧
    mlfsNewBlocks s₁ 40 .data = (.error .enospc,s₂) ∧ s₂.freeLists.map FreeList.nodes = [[⟨10,39⟩,⟨70,99⟩]] ∧
    s₂.freeLists.map FreeList.numFreeBlocks = [20] :=
  ⟨_,_,rfl,rfl,rfl,rfl,rfl,rfl⟩

def HasRange (s : Allocator) (num : Nat) : Prop := ∃ fl ∈ s.freeLists, ∃ n ∈ fl.nodes, num ≤ n.size

instance (s : Allocator) (num : Nat) : Decidable (HasRange s num) := by
  unfold HasRange
  infer_instance

def FirstListFits (s : Allocator) (num : Nat) (atype : AllocType) : Prop :=
  ∃ id fl, mlfsFindFreeList s num = some id ∧ s.freeLists[id]? = some fl ∧ Fits fl atype num

theorem request_served_iff (s : Allocator) (start : Each Accurate s) (actions : List Action) (final : Allocator)
    (ran : run step s actions = some final) (num : Nat) (asked : 0 < num) (atype : AllocType) :
    (HasRange final num → ∃ blocknr, (mlfsNewBlocks final num atype).1 = .ok blocknr) ↔
      (HasRange final num → FirstListFits final num atype) := by
  refine imp_congr_right fun _ => ?_
  generalize result : mlfsNewBlocks final num atype = r
  have served := newBlocks_served (run_tidy start.tidy ran) asked atype
  rw [result] at served
  cases served with
  | handed id blocknr fl fl' chosen found fits => exact iff_of_true ⟨blocknr,rfl⟩ ⟨id,fl,chosen,found,fits⟩
  | refused id fl fl' chosen found misfit =>
    refine iff_of_false (fun ⟨_,failed⟩ => by cases failed) ?_
    rintro ⟨id',fl'',chosen',found',fits⟩
    rw [chosen] at chosen'
    cases chosen'
    rw [found] at found'
    cases found'
    exact misfit fits
  | full none_ =>
    refine iff_of_false (fun ⟨_,failed⟩ => by cases failed) ?_
    rintro ⟨id,fl,chosen,_⟩
    rw [none_] at chosen
    cases chosen

theorem request_served_second_list : HasRange (mlfsInitBlockmap true 40 3 2) 18 ∧
    ∃ blocknr, (mlfsNewBlocks (mlfsInitBlockmap true 40 3 2) 18 .data).1 = .ok blocknr :=
  ⟨by decide,(request_served_iff _ (mlfsInitBlockmap_accurate (by decide)) [] _ rfl 18 (by decide) .data).mpr
    (fun _ => ⟨1,_,rfl,rfl,by decide⟩) (by decide)⟩

-- All 90 free blocks are one range, but a request for 90 is refused: a list must have more than the blocks asked for.
theorem request_for_all_free_blocks : HasRange (mlfsInitBlockmap true 100 10 1) 90 ∧
    (mlfsNewBlocks (mlfsInitBlockmap true 100 10 1) 90 .data).1 = .error .enospc := by
  decide

end Assise.FreeTree
