import Assise.Supply
import Assise.Lib.Runs

-- The free ranges of every partition along a run of allocations and returns: in order, apart, and no block out twice.
namespace Assise.Balloc

open Bitmap Lib.Spans Lib.Runs List Option

def RangeNode.Before (a b : RangeNode) : Prop := a.rangeHigh + 1 < b.rangeLow

-- `numFreeBlocks` is only a lower bound: a request that finds no range lowers it as well.
structure FreeList.Neat (fl : FreeList) (Home : Nat → Prop) : Prop where
  ordered : fl.Ordered
  before : fl.blockFreeTree.Pairwise RangeNode.Before
  home : ∀ b ∈ fl.free, Home b
  first : fl.firstNode = fl.blockFreeTree.head?.map (·.rangeLow)
  count : fl.numBlocknode = fl.blockFreeTree.length
  known : fl.numFreeBlocks ≤ fl.free.card

variable {fl : FreeList} {Home : Nat → Prop} {blocknr num low high : Nat} {atype : AllocType} {below above : List RangeNode}
    {sb after : SuperBlock} {result : Option Nat}

theorem FreeList.Neat.mono {Home' : Nat → Prop} (neat : fl.Neat Home) (weaker : ∀ b, Home b → Home' b) :
    fl.Neat Home' :=
  { neat with home := fun b member => weaker b (neat.home b member) }

theorem findFirstNode_neat (neat : fl.Neat Home) : findFirstNode fl = fl := by
  unfold findFirstNode
  split
  · rw [←neat.first]
  · rfl

theorem FreeList.Neat.nodup (neat : fl.Neat Home) : fl.free.Nodup := by
  have apart := neat.before
  unfold FreeList.free
  generalize fl.blockFreeTree = nodes at apart
  induction nodes with
  | nil => simp
  | cons node rest ih =>
    obtain ⟨lowest,later⟩ := pairwise_cons.mp apart
    rw [rangeBlocks_cons,Multiset.nodup_add]
    refine ⟨nodup_span _ _,ih later,Multiset.disjoint_left.mpr fun {b} here there => ?_⟩
    obtain ⟨n,member,low,_⟩ := mem_rangeBlocks.mp there
    have gap := lowest n member
    rw [RangeNode.blocks,mem_span,RangeNode.size] at here
    unfold RangeNode.Before at gap
    omega

theorem FreeList.Neat.take {after : FreeList}
    (neat : fl.Neat Home) (single : atype = .tree → num = 1)
    (alloc : mlfsAllocBlocksInFreeList fl atype num = (some blocknr,after)) : after.Neat Home := by
  have given := allocInList_free single alloc
  have fewer : fl.numFreeBlocks - num ≤ after.free.card := by
    have cards := congrArg Multiset.card given
    rw [Multiset.card_add,card_span] at cards
    have known := neat.known
    omega
  have home : ∀ b ∈ after.free, Home b := fun b member =>
    neat.home b (given ▸ Multiset.mem_add.mpr (Or.inl member))
  have ordered := allocInList_ordered atype num neat.ordered
  rw [alloc] at ordered
  have first := allocInList_first neat.ordered neat.nodup neat.first alloc
  rcases allocInList_cases alloc with ⟨none,_⟩ | ⟨_,before,curr,rest,left,same,tree,cut,rfl⟩
  · cases none
  have apart := tree ▸ neat.before
  have count := neat.count
  simp only [tree,length_append,length_cons] at count
  rcases cut.within with rfl | ⟨low,high,lowest,range,highest,rfl⟩
  · refine ⟨ordered,apart.sublist (List.Sublist.append_left (sublist_cons_self curr rest) before),home,first,?_,fewer⟩
    simp only [length_append,length_nil]
    omega
  · refine ⟨ordered,?_,home,first,?_,fewer⟩
    · simp only [cons_append,nil_append,pairwise_append,pairwise_cons,RangeNode.Before] at apart ⊢
      grind
    · simp only [length_append,length_cons,length_nil]
      omega

theorem FreeList.Neat.miss {after : FreeList}
    (neat : fl.Neat Home) (alloc : mlfsAllocBlocksInFreeList fl atype num = (none,after)) : after.Neat Home := by
  rw [allocInList_failed alloc]
  exact { neat with known := le_trans (Nat.sub_le _ _) neat.known }

theorem findFreeSlot_sides {nodes passed : List RangeNode}
    (ordered : ∀ n ∈ nodes, n.Ordered) (apart : nodes.Pairwise RangeNode.Before)
    (early : ∀ n ∈ passed, n.rangeHigh < low)
    (slot : mlfsFindFreeSlot low high passed nodes = some (below,above)) :
    (∀ n ∈ below, n.rangeHigh < low) ∧ ∀ n ∈ above, high < n.rangeLow := by
  induction nodes generalizing passed with
  | nil =>
    cases slot
    exact ⟨early,by simp⟩
  | cons node rest ih =>
    obtain ⟨lowest,later⟩ := pairwise_cons.mp apart
    unfold mlfsFindFreeSlot at slot
    split at slot
    · rename_i passes
      refine ih (fun n member => ordered n (mem_cons_of_mem node member)) later ?_ slot
      intro n member
      rcases mem_cons.mp member with rfl | member
      · exact passes
      · exact early n member
    · split at slot
      · rename_i reached
        cases slot
        refine ⟨early,fun n member => ?_⟩
        rcases mem_cons.mp member with rfl | member
        · exact reached
        · have gap := lowest n member
          have here := ordered node (mem_cons_self)
          unfold RangeNode.Before at gap
          unfold RangeNode.Ordered at here
          omega
      · cases slot

theorem merge_before {before behind : List RangeNode} (ordered : ∀ n ∈ before ++ behind, n.Ordered)
    (apart : (before ++ behind).Pairwise RangeNode.Before) (lower : ∀ n ∈ before, n.rangeHigh < low)
    (upper : ∀ n ∈ behind, high < n.rangeLow) : (merge low high before behind).Pairwise RangeNode.Before := by
  unfold RangeNode.Ordered at ordered
  unfold RangeNode.Before at apart ⊢
  obtain ⟨early,late,across⟩ := pairwise_append.mp apart
  -- A node reaches the range only by ending right below it or starting right above it.
  have under : before.getLast?.filter (fun prev => low = prev.rangeHigh + 1) = none → ∀ n ∈ before, n.rangeHigh + 1 < low := by
    intro gap n member
    rcases eq_nil_or_concat before with rfl | ⟨front,last,rfl⟩
    · cases member
    · simp at gap
      grind
  have beyond : behind.head?.filter (fun next => high + 1 = next.rangeLow) = none → ∀ n ∈ behind, high + 1 < n.rangeLow := by
    intro gap n member
    cases behind with
    | nil => cases member
    | cons next rest =>
      have first := upper next (by simp)
      have range := ordered next (by simp)
      simp at gap
      rcases mem_cons.mp member with rfl | later
      · omega
      · have gap := (pairwise_cons.mp late).1 n later
        omega
  unfold merge
  split
  · rename_i prev next left right
    obtain ⟨front,rfl,_⟩ := left_joins left
    obtain ⟨rest,rfl,_⟩ := right_meets right
    simp only [dropLast_concat,tail_cons,pairwise_append,pairwise_cons] at early late ⊢
    grind
  · rename_i prev left right
    obtain ⟨front,rfl,_⟩ := left_joins left
    have far := beyond right
    simp only [dropLast_concat,pairwise_append,pairwise_cons] at early ⊢
    grind
  · rename_i next left right
    obtain ⟨rest,rfl,_⟩ := right_meets right
    have far := under left
    simp only [tail_cons,pairwise_append,pairwise_cons] at late ⊢
    grind
  · rename_i left right
    have below := under left
    have above := beyond right
    simp only [pairwise_append,pairwise_cons]
    grind

theorem insertRange_count
    (count : fl.numBlocknode = (below.reverse ++ above).length) :
    (insertRange fl low high below above).numBlocknode =
      (insertRange fl low high below above).blockFreeTree.length := by
  simp only [length_append,length_reverse] at count
  rcases below with _ | ⟨prev,earlier⟩ <;> rcases above with _ | ⟨next,later⟩ <;> simp only [insertRange] <;>
    (repeat' split) <;> simp only [length_append,length_reverse,length_cons,length_nil] at count ⊢ <;>
    omega

theorem FreeList.Neat.give (neat : fl.Neat Home)
    (asked : num ≠ 0) (clear : ∀ b ∈ span blocknr num, b ∉ fl.free) (home : ∀ b ∈ span blocknr num, Home b) :
    ∃ after, freeInList fl blocknr num = some after ∧ after.Neat Home := by
  obtain ⟨below,above,slot⟩ := findFreeSlot_some fl.blockFreeTree [] (neat.ordered.sides asked clear)
  have whole : below.reverse ++ above = fl.blockFreeTree := by simpa using findFreeSlot_parts slot
  have freed := freeInList_slot slot
  obtain ⟨gained,ordered⟩ := freeInList_free asked neat.ordered freed
  obtain ⟨lower,upper⟩ := findFreeSlot_sides neat.ordered neat.before (by simp) slot
  refine ⟨_,freed,ordered,?_,?_,?_,?_,?_⟩
  · dsimp only
    rw [insertRange_tree]
    exact merge_before (fun n member => neat.ordered n (whole ▸ member)) (whole ▸ neat.before) (by simpa using lower) upper
  · intro b member
    rw [gained] at member
    rcases Multiset.mem_add.mp member with old | new
    · exact neat.home b old
    · exact home b new
  · exact insertRange_first whole neat.ordered neat.nodup neat.first
  · exact insertRange_count (whole ▸ neat.count)
  · rw [gained,Multiset.card_add,card_span]
    exact Nat.add_le_add_right neat.known num

def SuperBlock.partitionOf (sb : SuperBlock) (b : Nat) : Nat := min (b / sb.perListBlocks) sb.freeLists.length

structure SuperBlock.Neat (sb : SuperBlock) : Prop where
  lists : ∀ (i : Nat) (fl : FreeList), sb.freeLists[i]? = some fl → fl.Neat (sb.partitionOf · = i)
  shared : sb.sharedFreeList.Neat (sb.partitionOf · = sb.freeLists.length)

theorem SuperBlock.Neat.nodup (neat : sb.Neat) : sb.free.Nodup := by
  have once : ∀ (part : Nat → Nat) (lists : List FreeList) (start : Nat),
      (∀ (i : Nat) (fl : FreeList), lists[i]? = some fl → fl.free.Nodup ∧ ∀ b ∈ fl.free, part b = start + i) →
      (lists.map FreeList.free).sum.Nodup ∧
        ∀ b ∈ (lists.map FreeList.free).sum, start ≤ part b ∧ part b < start + lists.length := by
    intro part lists
    induction lists with
    | nil => simp
    | cons fl rest ih =>
      intro start each
      obtain ⟨own,ownPart⟩ := each 0 fl rfl
      obtain ⟨others,otherParts⟩ := ih (start + 1) fun i fl' found => by
        have later := each (i + 1) fl' found
        rwa [add_comm i 1,←add_assoc] at later
      rw [map_cons,sum_cons,length_cons]
      refine ⟨Multiset.nodup_add.mpr ⟨own,others,Multiset.disjoint_left.mpr fun {b} here there => ?_⟩,fun b member => ?_⟩
      · have left := ownPart b here
        have right := otherParts b there
        omega
      · rcases Multiset.mem_add.mp member with here | there
        · have left := ownPart b here
          omega
        · have right := otherParts b there
          omega
  obtain ⟨lists,parts⟩ := once sb.partitionOf sb.freeLists 0 fun i fl found =>
    ⟨(neat.lists i fl found).nodup,fun b member => by rw [zero_add]; exact (neat.lists i fl found).home b member⟩
  refine Multiset.nodup_add.mpr ⟨lists,neat.shared.nodup,Multiset.disjoint_left.mpr fun {b} here there => ?_⟩
  have left := (parts b here).2
  have right := neat.shared.home b there
  omega

structure SuperBlock.NeatIn (sb : SuperBlock) (Home : Nat → Nat → Prop) : Prop where
  lists : ∀ (i : Nat) (fl : FreeList), sb.freeLists[i]? = some fl → fl.Neat (Home i)
  shared : sb.sharedFreeList.Neat (Home sb.freeLists.length)

theorem SuperBlock.neat_iff (sb : SuperBlock) {sb' : SuperBlock} (lists : sb'.freeLists.length = sb.freeLists.length)
    (per : sb'.perListBlocks = sb.perListBlocks) : sb'.Neat ↔ sb'.NeatIn fun i b => sb.partitionOf b = i := by
  have same : sb'.partitionOf = sb.partitionOf := by
    funext b
    rw [SuperBlock.partitionOf,SuperBlock.partitionOf,lists,per]
  rw [←same]
  exact ⟨fun neat => ⟨neat.lists,neat.shared⟩,fun neat => ⟨neat.lists,neat.shared⟩⟩

theorem SuperBlock.NeatIn.replace {Home : Nat → Nat → Prop} {i : Nat} {fl' : FreeList} (neat : sb.NeatIn Home)
    (new : fl'.Neat (Home i)) : ({sb with freeLists := sb.freeLists.set i fl'} : SuperBlock).NeatIn Home := by
  constructor
  · intro j fl'' there
    rw [getElem?_set] at there
    split at there
    · rename_i here
      split at there
      · subst here
        cases there
        exact new
      · cases there
    · exact neat.lists j fl'' there
  · simpa only [length_set] using neat.shared

theorem SuperBlock.NeatIn.newBlocks {Home : Nat → Nat → Prop} (neat : sb.NeatIn Home) (single : atype = .tree → num = 1)
    (alloc : mlfsNewBlocks sb num atype = (result,after)) :
    after.NeatIn Home ∧ ∃ taken, sb.free = after.free + taken ∧ (∀ blocknr, result = some blocknr → taken = span blocknr num) ∧
      (result = none → 0 ∉ sb.free → taken = 0) := by
  refine ⟨?_,newBlocks_free alloc single⟩
  rcases newBlocks_cases alloc with ⟨_,rfl⟩ | ⟨id,fl,block,fl',_,found,inner,_,rfl⟩
  · exact neat
  · have own := neat.lists id fl found
    rw [findFirstNode_neat own] at inner
    cases block with
    | none => exact neat.replace (own.miss inner)
    | some b => exact neat.replace (own.take single inner)

theorem SuperBlock.Neat.newBlocks
    (neat : sb.Neat) (single : atype = .tree → num = 1) (alloc : mlfsNewBlocks sb num atype = (result,after)) :
    after.Neat ∧ ∃ taken, sb.free = after.free + taken ∧ ∀ blocknr, result = some blocknr → taken = span blocknr num := by
  obtain ⟨kept,taken,sum,handed,_⟩ := ((neat_iff sb rfl rfl).mp neat).newBlocks single alloc
  obtain ⟨lists,rfl,same⟩ := newBlocks_frame alloc
  exact ⟨(neat_iff sb same (by rfl)).mpr kept,taken,sum,handed⟩

theorem span_partition {b : Nat}
    (one : sb.partitionOf blocknr = sb.partitionOf (blocknr + num - 1)) (member : b ∈ span blocknr num) :
    sb.partitionOf b = sb.partitionOf blocknr := by
  obtain ⟨low,high⟩ := mem_span.mp member
  have above : sb.partitionOf blocknr ≤ sb.partitionOf b := min_le_min_right _ (Nat.div_le_div_right low)
  have below : sb.partitionOf b ≤ sb.partitionOf (blocknr + num - 1) :=
    min_le_min_right _ (Nat.div_le_div_right (by omega))
  omega

theorem SuperBlock.NeatIn.freeBlocksNode {Home : Nat → Nat → Prop} (neat : sb.NeatIn Home)
    (asked : num ≠ 0) (clear : ∀ b ∈ span blocknr num, b ∉ sb.free)
    (home : ∀ b ∈ span blocknr num, Home (sb.partitionOf blocknr) b) :
    ∃ after, mlfsFreeBlocksNode sb blocknr num = some after ∧ after.NeatIn Home ∧ after.free = sb.free + span blocknr num := by
  suffices done : ∃ after, mlfsFreeBlocksNode sb blocknr num = some after ∧ after.NeatIn Home by
    obtain ⟨after,freed,kept⟩ := done
    refine ⟨after,freed,kept,(freeBlocksNode_free freed ⟨fun fl member => ?_,neat.shared.ordered⟩).2⟩
    obtain ⟨i,found⟩ := getElem?_of_mem member
    exact (neat.lists i fl found).ordered
  unfold mlfsFreeBlocksNode
  rw [if_neg asked]
  cases found : sb.freeLists[blocknr / sb.perListBlocks]? with
  | some fl =>
    have here : sb.partitionOf blocknr = blocknr / sb.perListBlocks := min_eq_left (le_of_lt (List.getElem?_eq_some_iff.mp found).1)
    obtain ⟨_,sum,_⟩ := sum_map_set FreeList.free found
    obtain ⟨after,freed,neat'⟩ := (neat.lists _ fl found).give asked
      (fun b member free => clear b member (by
        rw [SuperBlock.free,sum]
        exact Multiset.mem_add.mpr (Or.inl (Multiset.mem_add.mpr (Or.inr free)))))
      (fun b member => here ▸ home b member)
    simp only [found,freed,map_some]
    exact ⟨_,rfl,neat.replace neat'⟩
  | none =>
    have here : sb.partitionOf blocknr = sb.freeLists.length := min_eq_right (getElem?_eq_none_iff.mp found)
    obtain ⟨after,freed,neat'⟩ := neat.shared.give asked
      (fun b member free => clear b member (Multiset.mem_add.mpr (Or.inr free)))
      (fun b member => here ▸ home b member)
    simp only [found,freed,map_some]
    exact ⟨_,rfl,neat.lists,neat'⟩

theorem SuperBlock.Neat.freeBlocksNode (neat : sb.Neat) (asked : num ≠ 0)
    (clear : ∀ b ∈ span blocknr num, b ∉ sb.free)
    (one : sb.partitionOf blocknr = sb.partitionOf (blocknr + num - 1)) :
    ∃ after, mlfsFreeBlocksNode sb blocknr num = some after ∧ after.Neat ∧
      after.free = sb.free + span blocknr num := by
  obtain ⟨after,freed,kept,sum⟩ := ((neat_iff sb rfl rfl).mp neat).freeBlocksNode asked clear fun b member => span_partition one member
  obtain ⟨lists,shared,rfl,same⟩ := freeBlocksNode_frame freed
  exact ⟨_,freed,(neat_iff sb same (by rfl)).mpr kept,sum⟩

structure Lending where
  sb : SuperBlock
  outstanding : Multiset Nat

inductive Request where
  | newBlocks (num : Nat) (atype : AllocType)
  | freeBlocksNode (blocknr num : Nat)
deriving DecidableEq, Repr

namespace Lending

def step (s : Lending) : Request → Option Lending
  | .newBlocks num atype =>
    match mlfsNewBlocks s.sb num atype with
    | (some blocknr,sb) => some ⟨sb,s.outstanding + span blocknr num⟩
    | (none,sb) => some ⟨sb,s.outstanding⟩
  | .freeBlocksNode blocknr num =>
    (mlfsFreeBlocksNode s.sb blocknr num).map fun sb => ⟨sb,s.outstanding - span blocknr num⟩

-- Tree requests ask for one block; a return names blocks that are out, all of one partition.
def Fair (s : Lending) : Request → Prop
  | .newBlocks num atype => atype = .tree → num = 1
  | .freeBlocksNode blocknr num => num ≠ 0 ∧ span blocknr num ≤ s.outstanding ∧
      s.sb.partitionOf blocknr = s.sb.partitionOf (blocknr + num - 1)

instance (s : Lending) : (request : Request) → Decidable (s.Fair request)
  | .newBlocks num atype => inferInstanceAs (Decidable (atype = .tree → num = 1))
  | .freeBlocksNode blocknr num => inferInstanceAs (Decidable (num ≠ 0 ∧ span blocknr num ≤ s.outstanding ∧
      s.sb.partitionOf blocknr = s.sb.partitionOf (blocknr + num - 1)))

structure Sound (s : Lending) : Prop where
  ranges : s.sb.Neat
  once : s.outstanding.Nodup
  out : ∀ b ∈ s.outstanding, b ∉ s.sb.free

variable {s : Lending}

theorem Sound.apart (sound : s.Sound) : (s.outstanding + s.sb.free).Nodup :=
  Multiset.nodup_add.mpr ⟨sound.once,sound.ranges.nodup,Multiset.disjoint_left.mpr fun {b} member => sound.out b member⟩

theorem sound_of_apart (ranges : s.sb.Neat) (apart : (s.outstanding + s.sb.free).Nodup) : s.Sound := by
  obtain ⟨once,_,disjoint⟩ := Multiset.nodup_add.mp apart
  exact ⟨ranges,once,fun b member => Multiset.disjoint_left.mp disjoint member⟩

theorem Sound.step {request : Request} (sound : s.Sound) (fair : s.Fair request) :
    ∃ next, s.step request = some next ∧ next.Sound := by
  have apart := sound.apart
  cases request with
  | newBlocks num atype =>
    simp only [Lending.step]
    cases alloc : mlfsNewBlocks s.sb num atype with
    | mk result after =>
      obtain ⟨neat,taken,sum,handed⟩ := sound.ranges.newBlocks fair alloc
      rw [sum] at apart
      cases result with
      | some blocknr =>
        cases handed blocknr rfl
        refine ⟨_,rfl,sound_of_apart neat ?_⟩
        dsimp only
        rwa [add_assoc,add_comm (span blocknr num)]
      | none =>
        refine ⟨_,rfl,sound_of_apart neat ?_⟩
        rw [←add_assoc] at apart
        exact (Multiset.nodup_add.mp apart).1
  | freeBlocksNode blocknr num =>
    obtain ⟨asked,held,one⟩ := fair
    obtain ⟨after,freed,neat,sum⟩ := sound.ranges.freeBlocksNode asked
      (fun b member => sound.out b (Multiset.mem_of_le held member)) one
    refine ⟨_,by rw [Lending.step,freed]; rfl,sound_of_apart neat ?_⟩
    dsimp only
    rwa [sum,add_comm s.sb.free,←add_assoc,Multiset.sub_add_cancel held]

-- `mlfs_init_blockmap` with `initialize` set: each partition gets one range, the first without the
-- reserved blocks. The shared list starts empty.
def mlfsInitBlockmap (numBlocks reservedBlocks nPartition : Nat) : SuperBlock :=
  let perListBlocks := numBlocks / nPartition
  { freeLists := (List.range nPartition).map fun i =>
      let used := if i = 0 then reservedBlocks else 0
      ⟨[⟨perListBlocks * i + used,perListBlocks * i + perListBlocks - 1⟩],some (perListBlocks * i + used),1,
        perListBlocks - used⟩
    sharedFreeList := ⟨[],none,0,0⟩
    perListBlocks := perListBlocks
    numBlocks := numBlocks
    reservedBlocks := reservedBlocks
    sBlkBitmap := ⟨fun i => decide (i < reservedBlocks),fun _ => false⟩
    usedBlocks := reservedBlocks
    bdBhDirty := [] }

theorem initSuperBlock_eq (numBlocks reservedBlocks : Nat) :
    initSuperBlock numBlocks reservedBlocks = mlfsInitBlockmap numBlocks reservedBlocks 1 := by
  simp [initSuperBlock,mlfsInitBlockmap]

theorem mlfsInitBlockmap_sound {numBlocks reservedBlocks nPartition : Nat}
    (room : reservedBlocks < numBlocks / nPartition) : (⟨mlfsInitBlockmap numBlocks reservedBlocks nPartition,0⟩ : Lending).Sound := by
  refine ⟨⟨?_,?_⟩,Multiset.nodup_zero,by simp⟩
  · intro i fl found
    simp only [mlfsInitBlockmap,getElem?_map,map_eq_some_iff,getElem?_eq_some_iff,
      getElem_range,length_range] at found
    obtain ⟨_,⟨inside,rfl⟩,rfl⟩ := found
    generalize perBlocks : numBlocks / nPartition = per at room
    have start : (if i = 0 then reservedBlocks else 0) < per := by split <;> omega
    generalize (if i = 0 then reservedBlocks else 0) = used at start
    refine ⟨?_,pairwise_singleton _ _,?_,rfl,rfl,?_⟩
    · intro n member
      cases mem_singleton.mp member
      simp only [RangeNode.Ordered]
      omega
    · intro b member
      obtain ⟨n,there,low,high⟩ := mem_rangeBlocks.mp member
      cases mem_singleton.mp there
      dsimp only at low high
      have quotient : b / per = i := by
        refine Nat.div_eq_of_lt_le ?_ ?_
        · rw [mul_comm]
          omega
        · rw [Nat.succ_mul,mul_comm]
          omega
      simp only [SuperBlock.partitionOf,mlfsInitBlockmap,length_map,length_range,perBlocks,quotient]
      exact min_eq_left (le_of_lt inside)
    · simp only [FreeList.free,rangeBlocks_cons,rangeBlocks_nil,add_zero,RangeNode.blocks,card_span,RangeNode.size]
      omega
  · exact ⟨fun _ none => absurd none not_mem_nil,List.Pairwise.nil,by simp [mlfsInitBlockmap,FreeList.free],rfl,rfl,le_refl 0⟩

theorem requests_keep_ranges_neat (s : Lending) (sound : s.Sound) (requests : List Request)
    (fair : Guarded step Fair s requests) :
    ∃ final, run step s requests = some final ∧ final.sb.Neat ∧ final.outstanding.Nodup ∧
      ∀ num atype blocknr after, (atype = .tree → num = 1) → mlfsNewBlocks final.sb num atype = (some blocknr,after) →
        ∀ b ∈ span blocknr num, b ∉ final.outstanding := by
  obtain ⟨final,ran,kept⟩ := total_run step Fair Sound (fun s request sound fair => sound.step fair) s requests sound fair
  refine ⟨final,ran,kept.ranges,kept.once,fun num atype blocknr after single alloc b member held => ?_⟩
  obtain ⟨_,taken,sum,handed⟩ := kept.ranges.newBlocks single alloc
  cases handed blocknr rfl
  exact kept.out b held (sum ▸ Multiset.mem_add.mpr (Or.inr member))

theorem requests_keep_ranges_neat_halves :
    ∃ final, run step ⟨mlfsInitBlockmap 20 3 2,0⟩
        [.newBlocks 4 .data,.newBlocks 1 .tree,.freeBlocksNode 4 2,.newBlocks 7 .data,.freeBlocksNode 3 1] = some final ∧
      final.sb.Neat ∧ final.outstanding.Nodup ∧
      ∀ num atype blocknr after, (atype = .tree → num = 1) → mlfsNewBlocks final.sb num atype = (some blocknr,after) →
        ∀ b ∈ span blocknr num, b ∉ final.outstanding :=
  requests_keep_ranges_neat _ (mlfsInitBlockmap_sound (by decide)) _ (by decide +kernel)

end Lending

end Assise.Balloc
