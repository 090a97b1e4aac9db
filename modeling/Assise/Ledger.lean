import Assise.Balloc

-- Who holds which block: every call of the allocator moves blocks between the free ranges, file data and tree nodes.
namespace Assise.Balloc

open Bitmap Lib.Spans List

def RangeNode.blocks (n : RangeNode) : Multiset Nat := span n.rangeLow n.size
def rangeBlocks (nodes : List RangeNode) : Multiset Nat := (nodes.map RangeNode.blocks).sum
def FreeList.free (fl : FreeList) : Multiset Nat := rangeBlocks fl.blockFreeTree
def SuperBlock.free (sb : SuperBlock) : Multiset Nat :=
  (sb.freeLists.map FreeList.free).sum + sb.sharedFreeList.free

@[simp] theorem rangeBlocks_nil : rangeBlocks [] = 0 := rfl

@[simp] theorem rangeBlocks_cons (node : RangeNode) (rest : List RangeNode) :
    rangeBlocks (node :: rest) = node.blocks + rangeBlocks rest := rfl

@[simp] theorem rangeBlocks_append (left right : List RangeNode) :
    rangeBlocks (left ++ right) = rangeBlocks left + rangeBlocks right := by
  simp [rangeBlocks]

theorem mem_rangeBlocks {nodes : List RangeNode} {b : Nat} :
    b ∈ rangeBlocks nodes ↔ ∃ n ∈ nodes, n.rangeLow ≤ b ∧ b ≤ n.rangeHigh := by
  induction nodes with
  | nil => simp
  | cons node rest ih =>
    rw [rangeBlocks_cons,Multiset.mem_add,ih,RangeNode.blocks,mem_span,RangeNode.size,exists_mem_cons_iff]
    refine or_congr_left ?_
    omega

variable {num block count : Nat} {fl : FreeList} {atype : AllocType} {sb after : SuperBlock} {held : Multiset Nat}
    {P : Nat → Prop}

theorem firstFit_parts {nodes small after : List RangeNode} {found : RangeNode}
    (fit : firstFit num nodes = some (small,found,after)) :
    nodes = small ++ found :: after ∧ num ≤ found.size := by
  induction nodes generalizing small with
  | nil => cases fit
  | cons curr rest ih =>
    unfold firstFit at fit
    split at fit
    · obtain ⟨⟨small',found',after'⟩,inner,same⟩ := Option.map_eq_some_iff.mp fit
      cases same
      obtain ⟨split,large⟩ := ih inner
      exact ⟨by rw [split]; rfl,large⟩
    · cases fit
      exact ⟨rfl,by omega⟩

theorem scanStart_parts (fl : FreeList) (atype : AllocType) :
    (scanStart fl atype).1 ++ (scanStart fl atype).2 = fl.blockFreeTree := by
  cases atype with
  | tree =>
    rcases eq_nil_or_concat fl.blockFreeTree with empty | ⟨front,last,shape⟩
    · simp [scanStart,empty]
    · simp [scanStart,shape]
  | data | dataLog =>
    unfold scanStart
    cases fl.firstNode with
    | none => simp
    | some low => simp [takeWhile_append_dropWhile]

-- The blocks taken from a node, and what is left of it: those of a tree come from its end.
def Cut (atype : AllocType) (num : Nat) (curr : RangeNode) (block : Nat) (left : List RangeNode) : Prop :=
  num = curr.size ∧ block = curr.rangeLow ∧ left = [] ∨
  num < curr.size ∧ (atype = .tree ∧ block = curr.rangeHigh ∧ left = [⟨curr.rangeLow,curr.rangeHigh - num⟩] ∨
    block = curr.rangeLow ∧ left = [⟨curr.rangeLow + num,curr.rangeHigh⟩])

theorem allocInList_cases {result : Option Nat} {after : FreeList}
    (alloc : mlfsAllocBlocksInFreeList fl atype num = (result,after)) :
    result = none ∧ after = {fl with numFreeBlocks := fl.numFreeBlocks - num} ∨
    ∃ block before curr rest left, result = some block ∧ fl.blockFreeTree = before ++ curr :: rest ∧
      Cut atype num curr block left ∧ after = ⟨before ++ (left ++ rest),
        if fl.firstNode = some curr.rangeLow then (left ++ rest).head?.map (·.rangeLow) else fl.firstNode,
        fl.numBlocknode - (1 - left.length),fl.numFreeBlocks - num⟩ := by
  unfold mlfsAllocBlocksInFreeList at alloc
  have whole := scanStart_parts fl atype
  generalize scanStart fl atype = scan at alloc whole
  obtain ⟨skipped,visited⟩ := scan
  simp only at alloc whole
  split at alloc
  · cases alloc
    exact Or.inl ⟨rfl,rfl⟩
  · rename_i small curr rest fit
    obtain ⟨parts,large⟩ := firstFit_parts fit
    have tree : fl.blockFreeTree = skipped ++ small ++ curr :: rest := by rw [←whole,parts,append_assoc]
    right
    split at alloc
    · rename_i exact
      cases alloc
      exact ⟨_,_,curr,rest,[],rfl,tree,Or.inl ⟨exact,rfl,rfl⟩,rfl⟩
    · rename_i larger
      have more : num < curr.size := by omega
      cases atype with
      | tree =>
        cases alloc
        refine ⟨_,_,curr,rest,_,rfl,tree,Or.inr ⟨more,Or.inl ⟨rfl,rfl,rfl⟩⟩,?_⟩
        have kept : (if fl.firstNode = some curr.rangeLow then some curr.rangeLow else fl.firstNode) = fl.firstNode :=
          ite_eq_right_iff.mpr Eq.symm
        simp [kept]
      | data | dataLog =>
        cases alloc
        exact ⟨_,_,curr,rest,_,rfl,tree,Or.inr ⟨more,Or.inr ⟨rfl,rfl⟩⟩,rfl⟩

section
variable {curr : RangeNode} {left : List RangeNode} (cut : Cut atype num curr block left)
include cut

theorem Cut.blocks (single : atype = .tree → num = 1) : curr.blocks = rangeBlocks left + span block num := by
  rcases cut with ⟨rfl,rfl,rfl⟩ | ⟨more,⟨tree,rfl,rfl⟩ | ⟨rfl,rfl⟩⟩
  · simp [RangeNode.blocks]
  · cases single tree
    unfold RangeNode.size at more
    simp only [rangeBlocks_cons,rangeBlocks_nil,add_zero,RangeNode.blocks,RangeNode.size]
    rw [span_cut (m:=curr.rangeHigh - curr.rangeLow) (by omega)]
    congr 2 <;> omega
  · unfold RangeNode.size at more
    simp only [rangeBlocks_cons,rangeBlocks_nil,add_zero,RangeNode.blocks,RangeNode.size]
    rw [span_cut (m:=num) (by omega),add_comm]
    congr 2
    omega

theorem Cut.within : left = [] ∨
    ∃ low high, curr.rangeLow ≤ low ∧ low ≤ high ∧ high ≤ curr.rangeHigh ∧ left = [⟨low,high⟩] := by
  rcases cut with ⟨_,_,rfl⟩ | ⟨more,⟨_,_,rfl⟩ | ⟨_,rfl⟩⟩
  · exact Or.inl rfl
  · unfold RangeNode.size at more
    exact Or.inr ⟨_,_,by omega,by omega,by omega,rfl⟩
  · unfold RangeNode.size at more
    exact Or.inr ⟨_,_,by omega,by omega,by omega,rfl⟩

end

theorem allocInList_free {after : FreeList} {blocknr : Nat} (single : atype = .tree → num = 1)
    (alloc : mlfsAllocBlocksInFreeList fl atype num = (some blocknr,after)) :
    fl.free = after.free + span blocknr num := by
  rcases allocInList_cases alloc with ⟨none,_⟩ | ⟨_,before,curr,rest,left,same,tree,cut,rfl⟩
  · cases none
  · cases same
    simp only [FreeList.free,tree,rangeBlocks_append,rangeBlocks_cons,cut.blocks single]
    abel

theorem allocInList_failed {after : FreeList}
    (alloc : mlfsAllocBlocksInFreeList fl atype num = (none,after)) : after = {fl with numFreeBlocks := fl.numFreeBlocks - num} := by
  rcases allocInList_cases alloc with ⟨_,same⟩ | ⟨_,_,_,_,_,some,_⟩
  · exact same
  · cases some

theorem sum_set {α : Type} (f : α → Multiset Nat) {l : List α} {i : Nat} {old : α} (new : α)
    (found : l[i]? = some old) : ((l.set i new).map f).sum + f old = (l.map f).sum + f new := by
  induction l generalizing i with
  | nil => cases found
  | cons head rest ih =>
    cases i with
    | zero =>
      cases found
      simp only [set_cons_zero,map_cons,sum_cons]
      abel
    | succ i =>
      simp only [set_cons_succ,map_cons,sum_cons]
      rw [add_assoc,ih (by simpa using found),add_assoc]

def RangeNode.Ordered (n : RangeNode) : Prop := n.rangeLow ≤ n.rangeHigh
def FreeList.Ordered (fl : FreeList) : Prop := ∀ n ∈ fl.blockFreeTree, n.Ordered
def SuperBlock.Ordered (sb : SuperBlock) : Prop :=
  (∀ fl ∈ sb.freeLists, fl.Ordered) ∧ sb.sharedFreeList.Ordered

theorem allocInList_ordered (atype : AllocType) (num : Nat) (ordered : fl.Ordered) :
    (mlfsAllocBlocksInFreeList fl atype num).2.Ordered := by
  rcases allocInList_cases (Prod.eta (mlfsAllocBlocksInFreeList fl atype num)).symm with
    ⟨_,same⟩ | ⟨_,before,curr,rest,left,_,tree,cut,same⟩ <;> rw [same]
  · exact ordered
  · intro n member
    rcases mem_append.mp member with early | late
    · exact ordered n (tree ▸ mem_append_left _ early)
    rcases mem_append.mp late with own | late
    · rcases cut.within with rfl | ⟨low,high,_,range,_,rfl⟩
      · cases own
      · exact mem_singleton.mp own ▸ range
    · exact ordered n (tree ▸ mem_append_right _ (mem_cons_of_mem _ late))

theorem findFreeSlot_parts {low high : Nat} {nodes passed below above : List RangeNode}
    (slot : mlfsFindFreeSlot low high passed nodes = some (below,above)) :
    below.reverse ++ above = passed.reverse ++ nodes := by
  induction nodes generalizing passed with
  | nil => cases slot; rfl
  | cons node rest ih =>
    unfold mlfsFindFreeSlot at slot
    split at slot
    · rw [ih slot]
      simp
    · split at slot
      · cases slot
        rfl
      · cases slot

theorem blocks_join (low mid high : Nat) (left : low ≤ mid + 1) (right : mid ≤ high) :
    (⟨low,high⟩ : RangeNode).blocks = (⟨low,mid⟩ : RangeNode).blocks + (⟨mid + 1,high⟩ : RangeNode).blocks := by
  simp only [RangeNode.blocks,RangeNode.size]
  rw [span_cut (m:=mid + 1 - low) (by omega)]
  congr 2 <;> omega

-- The ranges after one is returned between those before and those behind it.
def merge (low high : Nat) (before behind : List RangeNode) : List RangeNode :=
  match before.getLast?.filter (fun prev => low = prev.rangeHigh + 1),
      behind.head?.filter (fun next => high + 1 = next.rangeLow) with
  | some prev,some next => before.dropLast ++ ⟨prev.rangeLow,next.rangeHigh⟩ :: behind.tail
  | some prev,none => before.dropLast ++ ⟨prev.rangeLow,high⟩ :: behind
  | none,some next => before ++ ⟨low,next.rangeHigh⟩ :: behind.tail
  | none,none => before ++ ⟨low,high⟩ :: behind

section
variable {low high : Nat} {before behind : List RangeNode}

theorem left_joins {prev : RangeNode} (left : before.getLast?.filter (fun prev => low = prev.rangeHigh + 1) = some prev) :
    ∃ front, before = front ++ [prev] ∧ low = prev.rangeHigh + 1 := by
  obtain ⟨last,joins⟩ := Option.filter_eq_some_iff.mp left
  obtain ⟨front,rfl⟩ := getLast?_eq_some_iff.mp last
  exact ⟨front,rfl,of_decide_eq_true joins⟩

theorem right_meets {next : RangeNode} (right : behind.head?.filter (fun next => high + 1 = next.rangeLow) = some next) :
    ∃ rest, behind = next :: rest ∧ high + 1 = next.rangeLow := by
  obtain ⟨first,meets⟩ := Option.filter_eq_some_iff.mp right
  obtain ⟨rest,rfl⟩ := head?_eq_some_iff.mp first
  exact ⟨rest,rfl,of_decide_eq_true meets⟩

theorem merge_facts (range : low ≤ high) (ordered : ∀ n ∈ before ++ behind, n.Ordered) :
    (∀ n ∈ merge low high before behind, n.Ordered) ∧
      rangeBlocks (merge low high before behind) = rangeBlocks (before ++ behind) + Lib.Spans.span low (high + 1 - low) := by
  change _ ∧ _ = _ + (⟨low,high⟩ : RangeNode).blocks
  unfold RangeNode.Ordered at ordered ⊢
  unfold merge
  split
  · rename_i prev next left right
    obtain ⟨front,rfl,rfl⟩ := left_joins left
    obtain ⟨rest,rfl,meets⟩ := right_meets right
    have own := ordered prev (by simp)
    have other := ordered next (by simp)
    simp only [dropLast_concat,tail_cons]
    refine ⟨by grind,?_⟩
    simp only [rangeBlocks_append,rangeBlocks_cons,rangeBlocks_nil]
    rw [blocks_join prev.rangeLow prev.rangeHigh _ (by omega) (by omega),
      blocks_join (prev.rangeHigh + 1) high _ (by omega) (by omega),meets]
    abel
  · rename_i prev left right
    obtain ⟨front,rfl,rfl⟩ := left_joins left
    have own := ordered prev (by simp)
    simp only [dropLast_concat]
    refine ⟨by grind,?_⟩
    simp only [rangeBlocks_append,rangeBlocks_cons,rangeBlocks_nil]
    rw [blocks_join prev.rangeLow prev.rangeHigh _ (by omega) (by omega)]
    abel
  · rename_i next left right
    obtain ⟨rest,rfl,meets⟩ := right_meets right
    have other := ordered next (by simp)
    simp only [tail_cons]
    refine ⟨by grind,?_⟩
    simp only [rangeBlocks_append,rangeBlocks_cons]
    rw [blocks_join low high _ (by omega) (by omega),meets]
    abel
  · refine ⟨by grind,?_⟩
    simp only [rangeBlocks_append,rangeBlocks_cons]
    abel

theorem insertRange_tree (fl : FreeList) (low high : Nat) (below above : List RangeNode) :
    (insertRange fl low high below above).blockFreeTree = merge low high below.reverse above := by
  unfold merge
  rcases below with _ | ⟨prev,earlier⟩ <;> rcases above with _ | ⟨next,later⟩
  · simp [insertRange]
  · by_cases ends : high + 1 = next.rangeLow <;> simp [insertRange,Option.filter,ends]
  · by_cases touches : low = prev.rangeHigh + 1 <;> simp [insertRange,Option.filter,touches]
  · by_cases touches : low = prev.rangeHigh + 1 <;> by_cases ends : high + 1 = next.rangeLow <;>
      simp [insertRange,Option.filter,touches,ends]

end

theorem freeInList_free {after : FreeList} {blocknr : Nat} (asked : num ≠ 0) (ordered : fl.Ordered)
    (freed : freeInList fl blocknr num = some after) :
    after.free = fl.free + span blocknr num ∧ after.Ordered := by
  unfold freeInList at freed
  split at freed
  · cases freed
  · rename_i below above slot
    cases freed
    have whole : below.reverse ++ above = fl.blockFreeTree := by simpa using findFreeSlot_parts slot
    obtain ⟨kept,sum⟩ := merge_facts (show blocknr ≤ blocknr + num - 1 by omega) fun n member => ordered n (whole ▸ member)
    simp only [FreeList.free,FreeList.Ordered,insertRange_tree,←whole]
    rw [show blocknr + num - 1 + 1 - blocknr = num by omega] at sum
    exact ⟨sum,kept⟩

theorem findFirstNode_tree (fl : FreeList) : (findFirstNode fl).blockFreeTree = fl.blockFreeTree := by
  unfold findFirstNode
  split <;> rfl

theorem findFirstNode_free (fl : FreeList) : (findFirstNode fl).free = fl.free := by
  rw [FreeList.free,findFirstNode_tree,FreeList.free]

theorem free_set {id : Nat} (found : sb.freeLists[id]? = some fl) (fl' : FreeList) :
    ({sb with freeLists := sb.freeLists.set id fl'} : SuperBlock).free + fl.free = sb.free + fl'.free := by
  simp only [SuperBlock.free]
  rw [add_right_comm,sum_set FreeList.free fl' found,add_right_comm]

theorem free_replaced {id : Nat} {fl' : FreeList} {taken : Multiset Nat} (found : sb.freeLists[id]? = some fl)
    (less : fl.free = fl'.free + taken) :
    sb.free = ({sb with freeLists := sb.freeLists.set id fl'} : SuperBlock).free + taken := by
  apply add_right_cancel (b:=fl'.free)
  rw [←free_set found fl',less]
  abel

theorem SuperBlock.Ordered.set {fl' : FreeList} (ordered : sb.Ordered) (id : Nat) (own : fl'.Ordered) :
    ({sb with freeLists := sb.freeLists.set id fl'} : SuperBlock).Ordered := by
  refine ⟨fun other member => ?_,ordered.2⟩
  rcases mem_or_eq_of_mem_set member with old | rfl
  · exact ordered.1 other old
  · exact own

section
variable {result : Option Nat} (alloc : mlfsNewBlocks sb num atype = (result,after))
include alloc

theorem newBlocks_cases : result = none ∧ after = sb ∨
    ∃ id fl block fl', num ≠ 0 ∧ sb.freeLists[id]? = some fl ∧
      mlfsAllocBlocksInFreeList (findFirstNode fl) atype num = (block,fl') ∧ result = block.filter (· ≠ 0) ∧
      after = {sb with freeLists := sb.freeLists.set id fl'} := by
  unfold mlfsNewBlocks at alloc
  split at alloc
  · cases alloc
    exact Or.inl ⟨rfl,rfl⟩
  · rename_i asked
    split at alloc
    · cases alloc
      exact Or.inl ⟨rfl,rfl⟩
    · split at alloc
      · cases alloc
        exact Or.inl ⟨rfl,rfl⟩
      · rename_i fl found
        cases alloc
        exact Or.inr ⟨_,fl,_,_,asked,found,rfl,rfl,rfl⟩

theorem newBlocks_frame : ∃ lists, after = {sb with freeLists := lists} ∧ lists.length = sb.freeLists.length := by
  rcases newBlocks_cases alloc with ⟨_,rfl⟩ | ⟨_,_,_,_,_,_,_,_,rfl⟩
  · exact ⟨_,rfl,rfl⟩
  · exact ⟨_,rfl,length_set⟩

theorem newBlocks_ordered (ordered : sb.Ordered) : after.Ordered := by
  rcases newBlocks_cases alloc with ⟨_,rfl⟩ | ⟨id,fl,_,_,_,found,inner,_,rfl⟩
  · exact ordered
  · refine ordered.set id ?_
    have named : (findFirstNode fl).Ordered := fun n member =>
      ordered.1 fl (mem_of_getElem? found) n (findFirstNode_tree fl ▸ member)
    have own := allocInList_ordered atype num named
    rwa [inner] at own

theorem newBlocks_free (single : atype = .tree → num = 1) :
    ∃ taken, sb.free = after.free + taken ∧ (∀ blocknr, result = some blocknr → taken = span blocknr num) ∧
      (result = none → 0 ∉ sb.free → taken = 0) := by
  rcases newBlocks_cases alloc with ⟨rfl,rfl⟩ | ⟨id,fl,block,fl',asked,found,inner,rfl,rfl⟩
  · exact ⟨0,(add_zero _).symm,nofun,fun _ _ => rfl⟩
  · have named := findFirstNode_free fl
    cases block with
    | none =>
      refine ⟨0,free_replaced found ?_,nofun,fun _ _ => rfl⟩
      rw [allocInList_failed inner,←named,add_zero]
      rfl
    | some b =>
      have moved := free_replaced found (named ▸ allocInList_free single inner)
      refine ⟨span b num,moved,fun blocknr same => ?_,fun failed outside => ?_⟩
      · cases (Option.filter_eq_some_iff.mp same).1
        rfl
      · -- Only block number 0 is turned into a failure.
        have zero : b = 0 := by simpa using failed
        subst zero
        refine absurd ?_ outside
        rw [moved]
        exact Multiset.mem_add.mpr (Or.inr (mem_span.mpr (by omega)))

end

section
variable (freed : mlfsFreeBlocksNode sb block count = some after)
include freed

theorem freeBlocksNode_cases : count ≠ 0 ∧
    ((∃ fl fl', sb.freeLists[block / sb.perListBlocks]? = some fl ∧ freeInList fl block count = some fl' ∧
        after = {sb with freeLists := sb.freeLists.set (block / sb.perListBlocks) fl'}) ∨
      ∃ fl', freeInList sb.sharedFreeList block count = some fl' ∧ after = {sb with sharedFreeList := fl'}) := by
  unfold mlfsFreeBlocksNode at freed
  split at freed
  · cases freed
  · rename_i asked
    dsimp only at freed
    split at freed
    · rename_i fl found
      obtain ⟨fl',given,rfl⟩ := Option.map_eq_some_iff.mp freed
      exact ⟨asked,Or.inl ⟨fl,fl',found,given,rfl⟩⟩
    · obtain ⟨fl',given,rfl⟩ := Option.map_eq_some_iff.mp freed
      exact ⟨asked,Or.inr ⟨fl',given,rfl⟩⟩

theorem freeBlocksNode_frame :
    ∃ lists shared, after = {sb with freeLists := lists, sharedFreeList := shared} ∧ lists.length = sb.freeLists.length := by
  obtain ⟨_,⟨_,_,_,_,rfl⟩ | ⟨_,_,rfl⟩⟩ := freeBlocksNode_cases freed
  · exact ⟨_,_,rfl,length_set⟩
  · exact ⟨_,_,rfl,rfl⟩

theorem freeBlocksNode_free (ordered : sb.Ordered) : after.Ordered ∧ after.free = sb.free + span block count := by
  obtain ⟨asked,⟨fl,fl',found,given,rfl⟩ | ⟨fl',given,rfl⟩⟩ := freeBlocksNode_cases freed
  · obtain ⟨sum,own⟩ := freeInList_free asked (ordered.1 fl (mem_of_getElem? found)) given
    refine ⟨ordered.set _ own,add_right_cancel (b:=fl.free) ?_⟩
    rw [free_set found fl',sum]
    abel
  · obtain ⟨sum,own⟩ := freeInList_free asked ordered.2 given
    refine ⟨⟨ordered.1,own⟩,?_⟩
    simp only [SuperBlock.free,sum,add_assoc]

end

def SameDevice (before after : SuperBlock) : Prop :=
  after.perListBlocks = before.perListBlocks ∧ after.numBlocks = before.numBlocks ∧
    after.reservedBlocks = before.reservedBlocks

theorem SameDevice.trans {a b c : SuperBlock} (left : SameDevice a b) (right : SameDevice b c) :
    SameDevice a c :=
  ⟨right.1.trans left.1,right.2.1.trans left.2.1,right.2.2.trans left.2.2⟩

structure Taken (before after : SuperBlock) (block count : Nat) : Prop where
  ordered : after.Ordered
  free : before.free = after.free + span block count
  some : count ≠ 0
  bitmap : block < 2 ^ 32 → count < 2 ^ 31 →
    after.sBlkBitmap.bitmap = withRange before.sBlkBitmap.bitmap block (block + count)
  used : after.usedBlocks = before.usedBlocks + count
  dirty : after.bdBhDirty = before.bdBhDirty
  device : SameDevice before after

structure Given (before after : SuperBlock) (block count : Nat) : Prop where
  ordered : after.Ordered
  free : after.free = before.free + span block count
  bitmap : after.sBlkBitmap.bitmap = withoutRange before.sBlkBitmap.bitmap block (block + count)
  used : before.usedBlocks = after.usedBlocks + count
  dirty : after.bdBhDirty = before.bdBhDirty
  device : SameDevice before after

theorem allocTries_taken {tries : Nat}
    (single : atype = .tree → count = 1) (ordered : sb.Ordered) (positive : 0 ∉ sb.free)
    (alloc : allocTries atype count tries sb = some (block,after)) : Taken sb after block count := by
  induction tries generalizing sb with
  | zero => cases alloc
  | succ tries ih =>
    unfold allocTries at alloc
    generalize tried : mlfsNewBlocks sb count atype = pair at alloc
    obtain ⟨result,sb'⟩ := pair
    have ordered' := newBlocks_ordered tried ordered
    obtain ⟨taken,sum,found,failed⟩ := newBlocks_free tried single
    obtain ⟨lists,rfl,_⟩ := newBlocks_frame tried
    cases result with
    | some blockp =>
      cases found blockp rfl
      cases alloc
      refine ⟨ordered',sum,?_,bitmapBitsSetRange_bitmap _,rfl,rfl,rfl,rfl,rfl⟩
      rintro rfl
      cases tried
    | none =>
      have same := sum
      rw [failed rfl positive,add_zero] at same
      obtain ⟨ordered'',sum,asked,bits,used,dirty,device⟩ := ih ordered' (same ▸ positive) alloc
      exact ⟨ordered'',same ▸ sum,asked,bits,used,dirty,device⟩

theorem freeBlocks_given (ordered : sb.Ordered)
    (freed : mlfsFreeBlocks sb block count = some after) : Given sb after block count := by
  unfold mlfsFreeBlocks at freed
  split at freed
  · cases freed
  · rename_i node
    obtain ⟨ordered',sum⟩ := freeBlocksNode_free node ordered
    obtain ⟨lists,shared,rfl,_⟩ := freeBlocksNode_frame node
    split at freed
    · cases freed
      exact ⟨ordered',sum,bitmapBitsFree_bitmap _ _ _,by simp only at *; omega,rfl,rfl,rfl,rfl⟩
    · cases freed

structure Balanced (sb : SuperBlock) (held : Multiset Nat) : Prop where
  ordered : sb.Ordered
  reserved : 0 < sb.reservedBlocks
  total : sb.free + held = span sb.reservedBlocks (sb.numBlocks - sb.reservedBlocks)

-- The bitmap has the blocks set that are not free.
def Marked (sb : SuperBlock) : Prop :=
  ∀ b, sb.reservedBlocks ≤ b → b < sb.numBlocks → (sb.sBlkBitmap.bitmap b = true ↔ b ∉ sb.free)

section
variable (balanced : Balanced sb held)
include balanced

theorem Balanced.mem {b : Nat} :
    (b ∈ sb.free ∨ b ∈ held) ↔ sb.reservedBlocks ≤ b ∧ b < sb.numBlocks := by
  rw [←Multiset.mem_add,balanced.total,mem_span]
  omega

theorem Balanced.nodup :
    (sb.free + held).Nodup :=
  balanced.total ▸ nodup_span _ _

theorem Balanced.held_not_free {b : Nat}
    (member : b ∈ held) : b ∉ sb.free :=
  fun free => apart rfl balanced.nodup free member

theorem Balanced.positive :
    0 ∉ sb.free := by
  intro zero
  have bound := (balanced.mem.mp (Or.inl zero)).1
  have reserved := balanced.reserved
  omega

theorem Balanced.bit_iff_held (marked : Marked sb) {b : Nat}
    (low : sb.reservedBlocks ≤ b) (high : b < sb.numBlocks) :
    sb.sBlkBitmap.bitmap b = true ↔ b ∈ held := by
  rw [marked b low high]
  constructor
  · intro free
    exact (balanced.mem.mpr ⟨low,high⟩).resolve_left free
  · exact balanced.held_not_free

end

theorem Balanced.take {before : SuperBlock}
    (balanced : Balanced before held) (taken : Taken before after block count) :
    Balanced after (held + span block count) := by
  obtain ⟨_,blocks,reserved⟩ := taken.device
  refine ⟨taken.ordered,reserved ▸ balanced.reserved,?_⟩
  rw [reserved,blocks,←balanced.total,taken.free]
  abel

theorem Balanced.take_marked {before : SuperBlock} (balanced : Balanced before held)
    (taken : Taken before after block count) (small : before.numBlocks ≤ 2 ^ 32) (few : count < 2 ^ 31)
    (marked : Marked before) : Marked after := by
  intro b low high
  obtain ⟨_,blocks,reserved⟩ := taken.device
  have free := taken.free
  have distinct : (after.free + span block count).Nodup := by
    rw [←free]
    exact (Multiset.nodup_add.mp balanced.nodup).1
  have first : block ∈ before.free := by
    have some := taken.some
    rw [free,Multiset.mem_add,mem_span]
    omega
  have inside := (balanced.mem.mp (Or.inl first)).2
  rw [taken.bitmap (by omega) few,withRange_bit,marked b (reserved ▸ low) (blocks ▸ high),free,Multiset.mem_add,mem_span]
  constructor
  · rintro (other | range)
    · exact fun later => other (Or.inl later)
    · exact fun later => apart rfl distinct later (mem_span.mpr range)
  · intro gone
    by_cases range : block ≤ b ∧ b < block + count
    · exact Or.inr range
    · exact Or.inl fun earlier => earlier.elim gone range

theorem Balanced.give {before : SuperBlock}
    (balanced : Balanced before (held + span block count)) (given : Given before after block count) :
    Balanced after held := by
  obtain ⟨_,blocks,reserved⟩ := given.device
  refine ⟨given.ordered,reserved ▸ balanced.reserved,?_⟩
  rw [reserved,blocks,←balanced.total,given.free]
  abel

theorem Given.marked {before : SuperBlock} (given : Given before after block count) (marked : Marked before) :
    Marked after := by
  intro b low high
  obtain ⟨_,blocks,reserved⟩ := given.device
  rw [given.bitmap,withoutRange_bit,marked b (reserved ▸ low) (blocks ▸ high),given.free,Multiset.mem_add,mem_span,not_or]

theorem Balanced.take_alloc {held : Multiset Nat}
    (balanced : Balanced sb held) (single : atype = .tree → count = 1)
    (alloc : mlfsExtAllocBlocks sb atype count = some (block,after)) : Taken sb after block count :=
  allocTries_taken single balanced.ordered balanced.positive alloc

structure Account where
  sb : SuperBlock
  data : Multiset Nat
  nodes : Multiset Nat

def Account.Balanced (a : Account) : Prop := Balloc.Balanced a.sb (a.data + a.nodes)

-- A call on the extent tree takes nodes while it grows the tree and returns data blocks while it
-- shrinks it, never both at a time.
inductive Phase where
  | grow
  | shrink
deriving DecidableEq, Repr

inductive Move : Phase → Account → Account → Prop where
  | takeNode {sb sb' : SuperBlock} {data nodes : Multiset Nat} {block : Nat}
      (alloc : mlfsExtAllocBlocks sb .tree 1 = some (block,sb')) :
      Move .grow ⟨sb,data,nodes⟩ ⟨sb',data,nodes + {block}⟩
  | dropNode {phase : Phase} {sb sb' : SuperBlock} {data nodes : Multiset Nat} {block : Nat}
      (freed : mlfsFreeBlocks sb block 1 = some sb') :
      Move phase ⟨sb,data,nodes + {block}⟩ ⟨sb',data,nodes⟩
  | dropData {sb sb' : SuperBlock} {data nodes : Multiset Nat} {block count : Nat}
      (freed : mlfsFreeBlocks sb block count = some sb') :
      Move .shrink ⟨sb,data + span block count,nodes⟩ ⟨sb',data,nodes⟩
  | mark {phase : Phase} {sb : SuperBlock} {data nodes : Multiset Nat} {block : Nat} (node : block ∈ nodes) :
      Move phase ⟨sb,data,nodes⟩ ⟨markBufferDirty sb block,data,nodes⟩

def Moves (phase : Phase) : Account → Account → Prop := Relation.ReflTransGen (Move phase)

@[simp] theorem markBufferDirty_free (sb : SuperBlock) (block : Nat) :
    (markBufferDirty sb block).free = sb.free := by
  unfold markBufferDirty
  split <;> rfl

theorem mem_markBufferDirty {b : Nat} :
    b ∈ (markBufferDirty sb block).bdBhDirty ↔ b ∈ sb.bdBhDirty ∨ b = block := by
  unfold markBufferDirty
  split
  · rename_i listed
    constructor
    · exact Or.inl
    · rintro (old | rfl)
      · exact old
      · exact listed
  · simp

theorem Balanced.mark (balanced : Balanced sb held) (block : Nat) :
    Balanced (markBufferDirty sb block) held := by
  unfold markBufferDirty
  split
  · exact balanced
  · exact { balanced with }

variable {phase : Phase} {a b : Account}

theorem Move.balanced (move : Move phase a b) (balanced : a.Balanced) : b.Balanced := by
  cases move with
  | takeNode alloc =>
    have taken := balanced.take_alloc (fun _ => rfl) alloc
    simpa only [Account.Balanced,add_assoc,span_one] using balanced.take taken
  | dropNode freed =>
    have given := freeBlocks_given balanced.ordered freed
    refine Balanced.give (?_ : Balloc.Balanced _ _) given
    simpa only [Account.Balanced,add_assoc,span_one] using balanced
  | dropData freed =>
    have given := freeBlocks_given balanced.ordered freed
    refine Balanced.give (?_ : Balloc.Balanced _ _) given
    have moved := balanced
    simp only [Account.Balanced] at moved ⊢
    rwa [add_right_comm] at moved
  | mark node => exact balanced.mark _

theorem Moves.balanced (moves : Moves phase a b) (balanced : a.Balanced) : b.Balanced := by
  induction moves with
  | refl => exact balanced
  | tail _ move ih => exact move.balanced ih

theorem Move.marked (move : Move phase a b) (balanced : a.Balanced) (small : a.sb.numBlocks ≤ 2 ^ 32)
    (marked : Marked a.sb) : Marked b.sb := by
  cases move with
  | takeNode alloc => exact balanced.take_marked (balanced.take_alloc (fun _ => rfl) alloc) small (by decide) marked
  | dropNode freed | dropData freed => exact (freeBlocks_given balanced.ordered freed).marked marked
  | mark node =>
    unfold markBufferDirty
    split
    · exact marked
    · exact marked

theorem Move.grow_keeps (move : Move .grow a b) (balanced : a.Balanced)
    (nodes : ∀ x ∈ a.nodes, P x) (free : ∀ x ∈ a.sb.free, P x) :
    b.data = a.data ∧ (∀ x ∈ b.nodes, P x) ∧ (∀ x ∈ b.sb.free, P x) ∧
      ∀ x ∈ b.sb.bdBhDirty, x ∈ a.sb.bdBhDirty ∨ P x := by
  cases move with
  | takeNode alloc =>
    have taken := balanced.take_alloc (fun _ => rfl) alloc
    simp only at free
    rw [taken.free] at free
    refine ⟨rfl,fun x member => ?_,fun x member => free x (Multiset.mem_add.mpr (Or.inl member)),?_⟩
    · rcases Multiset.mem_add.mp member with old | new
      · exact nodes x old
      · refine free x (Multiset.mem_add.mpr (Or.inr ?_))
        rwa [span_one]
    · rw [taken.dirty]
      exact fun x member => Or.inl member
  | dropNode freed =>
    have given := freeBlocks_given balanced.ordered freed
    refine ⟨rfl,fun x member => nodes x (Multiset.mem_add.mpr (Or.inl member)),fun x member => ?_,?_⟩
    · simp only at member
      rw [given.free,span_one] at member
      rcases Multiset.mem_add.mp member with old | new
      · exact free x old
      · exact nodes x (Multiset.mem_add.mpr (Or.inr new))
    · rw [given.dirty]
      exact fun x member => Or.inl member
  | mark node =>
    refine ⟨rfl,nodes,by simpa using free,fun x member => ?_⟩
    rcases mem_markBufferDirty.mp member with old | rfl
    · exact Or.inl old
    · exact Or.inr (nodes x node)

theorem Moves.grow_keeps (moves : Moves .grow a b) (balanced : a.Balanced)
    (nodes : ∀ x ∈ a.nodes, P x) (free : ∀ x ∈ a.sb.free, P x) :
    b.data = a.data ∧ (∀ x ∈ b.nodes, P x) ∧ (∀ x ∈ b.sb.free, P x) ∧
      ∀ x ∈ b.sb.bdBhDirty, x ∈ a.sb.bdBhDirty ∨ P x := by
  induction moves with
  | refl => exact ⟨rfl,nodes,free,fun x member => Or.inl member⟩
  | tail path move ih =>
    obtain ⟨same,nodes',free',dirty'⟩ := ih
    obtain ⟨same',nodes'',free'',dirty''⟩ := move.grow_keeps (Moves.balanced path balanced) nodes' free'
    refine ⟨same'.trans same,nodes'',free'',fun x member => ?_⟩
    exact (dirty'' x member).elim (dirty' x) Or.inr

theorem Move.shrink_keeps (move : Move .shrink a b) (balanced : a.Balanced)
    (nodes : ∀ x ∈ a.nodes, P x) :
    b.data ≤ a.data ∧ (∀ x ∈ b.nodes, P x) ∧ ∀ x ∈ b.sb.bdBhDirty, x ∈ a.sb.bdBhDirty ∨ P x := by
  cases move with
  | dropNode freed =>
    have given := freeBlocks_given balanced.ordered freed
    refine ⟨le_refl _,fun x member => nodes x (Multiset.mem_add.mpr (Or.inl member)),?_⟩
    rw [given.dirty]
    exact fun x member => Or.inl member
  | dropData freed =>
    have given := freeBlocks_given balanced.ordered freed
    refine ⟨Multiset.le_add_right _ _,nodes,?_⟩
    rw [given.dirty]
    exact fun x member => Or.inl member
  | mark node =>
    refine ⟨le_refl _,nodes,fun x member => ?_⟩
    rcases mem_markBufferDirty.mp member with old | rfl
    · exact Or.inl old
    · exact Or.inr (nodes x node)

theorem Moves.shrink_keeps (moves : Moves .shrink a b) (balanced : a.Balanced)
    (nodes : ∀ x ∈ a.nodes, P x) :
    b.data ≤ a.data ∧ (∀ x ∈ b.nodes, P x) ∧ ∀ x ∈ b.sb.bdBhDirty, x ∈ a.sb.bdBhDirty ∨ P x := by
  induction moves with
  | refl => exact ⟨le_refl _,nodes,fun x member => Or.inl member⟩
  | tail path move ih =>
    obtain ⟨fewer,nodes',dirty'⟩ := ih
    obtain ⟨fewer',nodes'',dirty''⟩ := move.shrink_keeps (Moves.balanced path balanced) nodes'
    refine ⟨fewer'.trans fewer,nodes'',fun x member => ?_⟩
    exact (dirty'' x member).elim (dirty' x) Or.inr

theorem Move.sameDevice (move : Move phase a b) (balanced : a.Balanced) :
    SameDevice a.sb b.sb := by
  cases move with
  | takeNode alloc => exact (balanced.take_alloc (fun _ => rfl) alloc).device
  | dropNode freed | dropData freed => exact (freeBlocks_given balanced.ordered freed).device
  | mark node =>
    simp only [markBufferDirty]
    split <;> exact ⟨rfl,rfl,rfl⟩

theorem Moves.sameDevice (moves : Moves phase a b) (balanced : a.Balanced) :
    SameDevice a.sb b.sb := by
  induction moves with
  | refl => exact ⟨rfl,rfl,rfl⟩
  | tail path move ih => exact ih.trans (move.sameDevice (Moves.balanced path balanced))

theorem Moves.marked (moves : Moves phase a b) (balanced : a.Balanced) (small : a.sb.numBlocks ≤ 2 ^ 32)
    (marked : Marked a.sb) : Marked b.sb := by
  induction moves with
  | refl => exact marked
  | tail path move ih =>
    have same := (Moves.sameDevice path balanced).2.1
    exact move.marked (Moves.balanced path balanced) (same.le.trans small) ih

theorem init_free {numBlocks reservedBlocks : Nat} (space : reservedBlocks < numBlocks) :
    (initSuperBlock numBlocks reservedBlocks).free = span reservedBlocks (numBlocks - reservedBlocks) := by
  have size : numBlocks - 1 + 1 - reservedBlocks = numBlocks - reservedBlocks := by omega
  simp [SuperBlock.free,initSuperBlock,FreeList.free,RangeNode.blocks,RangeNode.size,size]

theorem init_balanced {numBlocks reservedBlocks : Nat} (reserved : 0 < reservedBlocks)
    (space : reservedBlocks < numBlocks) : Balanced (initSuperBlock numBlocks reservedBlocks) 0 := by
  refine ⟨⟨?_,?_⟩,reserved,?_⟩
  · intro fl member n inside
    simp only [initSuperBlock,mem_singleton] at member
    subst member
    simp only [mem_singleton] at inside
    subst inside
    simp only [RangeNode.Ordered]
    omega
  · intro n member
    cases member
  · rw [init_free space,add_zero]
    rfl

theorem init_marked {numBlocks reservedBlocks : Nat} (space : reservedBlocks < numBlocks) :
    Marked (initSuperBlock numBlocks reservedBlocks) := by
  intro b low high
  simp only [initSuperBlock] at low high
  rw [init_free space,mem_span]
  simp only [initSuperBlock,decide_eq_true_eq]
  omega

end Assise.Balloc
