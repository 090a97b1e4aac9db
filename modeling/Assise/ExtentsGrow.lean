import Assise.ExtentsInsert

-- Making room for an extent: splitting a full leaf, a new level, the next leaf.
namespace Assise.Extents

open Balloc Lib.Spans Option
open List hiding span

variable {d : Nat} {sb : SuperBlock}

theorem ExtPath.depth_le {top : Nat} (path : ExtPath d top) : d ≤ top := by
  induction path with
  | root => exact le_refl _
  | under left pIdx right up ih => omega

theorem levelsToFreeIndex_lt {top levels : Nat} {path : ExtPath d top}
    (found : levelsToFreeIndex path = some levels) : d + levels < top := by
  induction path generalizing levels with
  | root => cases found
  | under left pIdx right up ih =>
    rename_i d top
    by_cases free : left.length + 1 + right.length < ehMax up
    · rw [levelsToFreeIndex,if_pos free] at found
      cases found
      exact up.depth_le
    · obtain ⟨rest,above,rfl⟩ := levelsToFreeIndex_under free found
      have bound := ih above
      omega

theorem ehMax_below {top : Nat} (path : ExtPath 0 top) (deep : 0 < top) : ehMax path = mlfsExtSpaceBlock := by
  cases path with
  | root => exact absurd deep (lt_irrefl 0)
  | under left pIdx right up => rfl

def width : {d : Nat} → Tree d → Nat
  | 0,leaf => (leafOf leaf).length
  | _ + 1,node => (entriesOf node).length

theorem levels_none {top : Nat} {path : ExtPath d top} (full : levelsToFreeIndex path = none) (deep : d < top)
    (node : Tree d) : mlfsExtSpaceRoot ≤ width (plug path node) := by
  induction path with
  | root => exact absurd deep (lt_irrefl _)
  | under left pIdx right up ih =>
    unfold levelsToFreeIndex at full
    split at full
    · cases full
    · rename_i noRoom
      cases up with
      | root =>
        simp only [ehMax] at noRoom
        simp only [plug,width,length_append,length_cons]
        omega
      | under left' pIdx' right' up' =>
        have above := up'.depth_le
        exact ih (Option.map_eq_none_iff.mp full) (by omega) _

theorem splitUp_ok {border top key : Nat} {path : ExtPath d top} {old new : Tree d}
    {ablocks : List Nat} (newblock : Nat) (sb : SuperBlock) (room : levelsToFreeIndex path = some ablocks.length)
    (ok : PathOk path key) (oldOk : NodeOk mlfsExtSpaceBlock key old) (newOk : NodeOk mlfsExtSpaceBlock border new)
    (order : key < border) (sorted : KeysSorted (leavesBefore path ++ leaves key old)) :
    ∃ node sb', splitUp border path old newblock new ablocks sb = some (node,sb') ∧
      NodeOk mlfsExtSpaceRoot (rootKey path key) node ∧
      leaves (rootKey path key) node =
        leavesBefore path ++ leaves key old ++ leaves border new ++ leavesAfter path := by
  induction path generalizing key newblock ablocks sb with
  | root => cases room
  | under left pIdx right up ih =>
    obtain ⟨rfl,before,after,count,above⟩ := ok
    unfold splitUp
    simp only
    by_cases free : left.length + 1 + right.length < ehMax up
    · rw [if_pos free,if_neg (Nat.ne_of_gt order),if_pos order]
      refine ⟨_,_,rfl,plug_ok above ⟨?_,topBlock_entries left _ pIdx old,?_⟩,?_⟩
      · simp only [length_append,length_cons]
        omega
      · intro e member
        rcases mem_append.mp member with early | late
        · exact before e early
        · rcases mem_cons.mp late with rfl | late
          · exact oldOk
          · rcases mem_cons.mp late with rfl | late
            · exact newOk
            · exact after e late
      · rw [rootKey,leaves_plug above]
        simp [leavesBefore,leavesAfter]
    · rw [if_neg free]
      obtain ⟨rest,levels,longer⟩ := levelsToFreeIndex_under free room
      cases ablocks with
      | nil => cases longer
      | cons block ablocks =>
        have short : ehMax up ≤ mlfsExtSpaceBlock := by cases up <;> simp [ehMax,mlfsExtSpaceRoot,mlfsExtSpaceBlock]
        have firstLow : firstKey left pIdx ≤ pIdx.eiBlock := by
          cases left with
          | nil => exact le_refl _
          | cons e more =>
            obtain ⟨leaf,behind,first⟩ := (before e (by simp)).first_leaf
            obtain ⟨leaf',behind',first'⟩ := oldOk.first_leaf
            refine le_of_lt (sorted.parts.2.2 (e.1.eiBlock,leaf) ?_ (pIdx.eiBlock,leaf') (by simp [first']))
            simp [leavesBefore,first]
        have oldFits : NodeOk mlfsExtSpaceBlock (firstKey left pIdx) (indexNode (left ++ [(pIdx,old)])) := by
          refine ⟨?_,topBlock_entries left [] pIdx old,?_⟩
          · simp only [length_append,length_singleton]
            omega
          · intro e member
            rcases mem_append.mp member with early | last
            · exact before e early
            · cases mem_singleton.mp last
              exact oldOk
        have newFits : NodeOk mlfsExtSpaceBlock border (indexNode ((⟨border,newblock⟩,new) :: right)) := by
          refine ⟨?_,rfl,?_⟩
          · simp only [length_cons]
            omega
          · intro e member
            rcases mem_cons.mp member with rfl | late
            · exact newOk
            · exact after e late
        obtain ⟨node,sb',done,nodeOk,whole⟩ := ih block
          (if right = [] then markBufferDirty sb block else mlfsExtDirty up (markBufferDirty sb block))
          (levels.trans (congrArg some (Nat.succ.inj longer).symm)) above oldFits newFits
          (firstLow.trans_lt order) (by simpa [leavesBefore] using sorted)
        refine ⟨node,sb',done,nodeOk,?_⟩
        rw [rootKey,whole]
        simp [leavesBefore,leavesAfter]

def Proceeds {α : Type} (space : Prop) (result : Option α) : Prop := space ∨ result.isSome = true

theorem Proceeds.of_imp {α β : Type} {space space' : Prop} {result : Option α} {part : Option β}
    (go : Proceeds space result) (enough : space → space') (fails : part = none → result = none) :
    Proceeds space' part := by
  rcases go with free | returned
  · exact Or.inl (enough free)
  · refine Or.inr ?_
    cases part with
    | none =>
      rw [fails rfl] at returned
      cases returned
    | some _ => rfl

variable {held : Multiset Nat}

theorem allocNodes_ok {n : Nat} (working : Working sb held)
    (go : Proceeds (n < sb.free.card) (allocNodes n sb)) :
    ∃ blocks sb', allocNodes n sb = some (blocks,sb') ∧ blocks.length = n := by
  rcases go with room | returned
  swap
  · obtain ⟨⟨blocks,sb'⟩,done⟩ := isSome_iff_exists.mp returned
    have moved : Moves .grow ⟨sb,0,0⟩ ⟨sb',0,0 + (blocks : Multiset Nat)⟩ ∧ blocks.length = n := allocNodes_moves done
    exact ⟨blocks,sb',done,moved.2⟩
  induction n generalizing sb held with
  | zero => exact ⟨[],sb,rfl,rfl⟩
  | succ n ih =>
    obtain ⟨block,sb₁,alloc,working₁⟩ := working.alloc (by simp) (fun _ => rfl)
      (⟨by omega,Or.inl rfl⟩ : Room sb .tree 1)
    have taken := congrArg Multiset.card (working.take_alloc (fun _ => rfl) alloc).free
    rw [Multiset.card_add,card_span] at taken
    obtain ⟨blocks,sb',more,count⟩ := ih working₁ (by omega)
    refine ⟨block :: blocks,sb',?_,by simp [count]⟩
    rw [allocNodes,mlfsNewMetaBlocks,alloc]
    simp [more]

def Ready (root : ExtRoot) (newext : Extent) : Prop :=
  ∃ c key k, mlfsFindExtent root newext.eeBlock = some c ∧ c.On root.node ∧
    Place c.path c.leaf key newext k ∧ insertPosition c newext = some k ∧ c.leaf.length < ehMax c.path

section Full
variable {root : ExtRoot} {c : Cursor root.ehDepth} {key : Nat} {left right : List Extent} {ex newext : Extent}

def splitBorder (newext : Extent) (right : List Extent) : Nat :=
  match right with
  | [] => newext.eeBlock
  | next :: _ => next.eeBlock

theorem extSplit_ok {levels : Nat}
    (at_ : Located root newext.eeBlock c key left ex right) (sorted : KeysSorted (leavesBefore c.path ++ [(key,c.leaf)]))
    (full : c.leaf.length = ehMax c.path) (room : levelsToFreeIndex c.path = some levels)
    (order : key < splitBorder newext right) (working : Working sb held)
    (go : Proceeds (levels + 1 < sb.free.card) (mlfsExtSplit c newext levels sb)) :
    ∃ node sb', mlfsExtSplit c newext levels sb = some (⟨root.ehDepth,node⟩,sb') ∧
      ∃ top, NodeOk mlfsExtSpaceRoot top node ∧ leaves top node =
        leavesBefore c.path ++ (key,left ++ [ex]) :: (splitBorder newext right,right) :: leavesAfter c.path := by
  have deep : 0 < root.ehDepth := lt_of_le_of_lt (Nat.zero_le _) (levelsToFreeIndex_lt room)
  have fits := at_.fits
  rw [ehMax_below c.path deep,at_.leaf] at fits
  simp only [length_append,length_cons] at fits
  obtain ⟨blocks,sb₁,alloc,count⟩ := allocNodes_ok working (go.of_imp id fun none => by
    simp [mlfsExtSplit,at_.place,full,none])
  have taken : c.leaf.take (left.length + 1) = left ++ [ex] := by
    rw [at_.leaf,take_append,take_of_length_le (by omega)]
    simp
  have dropped : c.leaf.drop (left.length + 1) = right := by
    rw [at_.leaf,drop_append,drop_of_length_le (by omega)]
    simp
  have next : c.leaf[left.length + 1]? = right.head? := by
    rw [at_.leaf,getElem?_append_right (by omega)]
    cases right <;> simp
  cases backwards : blocks.reverse with
  | nil => simp [reverse_eq_nil_iff.mp backwards] at count
  | cons newblock ablocks =>
    have levelsLeft : levelsToFreeIndex c.path = some ablocks.length := by
      have total := congrArg List.length backwards
      rw [length_reverse,count,length_cons] at total
      rw [room,Nat.succ.inj total]
    have oldFits : NodeOk mlfsExtSpaceBlock key (leafNode (left ++ [ex])) := by
      simp only [NodeOk,length_append,length_singleton]
      omega
    have newFits : NodeOk mlfsExtSpaceBlock (splitBorder newext right) (leafNode right) := by
      change right.length ≤ mlfsExtSpaceBlock
      omega
    obtain ⟨node,sb',done,nodeOk,whole⟩ := splitUp_ok newblock
      (if right = [] then markBufferDirty sb₁ newblock else mlfsExtDirty c.path (markBufferDirty sb₁ newblock))
      levelsLeft at_.path oldFits newFits order (by simpa [KeysSorted] using sorted)
    refine ⟨node,sb',?_,_,nodeOk,?_⟩
    · rw [mlfsExtSplit,at_.place]
      simp only [bind_eq_bind,bind_some,next,alloc,backwards,taken,dropped,full,ne_eq,
        not_true_eq_false,if_false]
      cases right with
      | nil =>
        simp only [splitBorder] at done
        simp only [head?_nil,done,bind_some]
      | cons first rest =>
        simp only [splitBorder] at done
        simp only [head?_cons,done,bind_some]
    · rw [whole]
      simp

variable {block : Nat} {held : Multiset Nat}

section
variable (at_ : Located root block c key left ex right)
include at_

theorem Located.exact :
    Exact (leavesBefore c.path ++ (key,c.leaf) :: leavesAfter c.path) := by
  refine Exact.append.mpr ⟨at_.before,fun l member => ?_⟩
  rcases mem_cons.mp member with rfl | later
  · exact at_.start
  · exact at_.after l later

theorem Located.keysSorted
    (order : InOrder (extents root.node)) :
    KeysSorted (leavesBefore c.path ++ (key,c.leaf) :: leavesAfter c.path) := by
  refine at_.exact.keysSorted ?_
  rw [at_.on.extents,←leavesBefore_extents,←leavesAfter_extents] at order
  simpa using order

theorem Located.key_le (order : InOrder (extents root.node)) :
    key ≤ ex.eeBlock := by
  have start := at_.start
  rw [at_.on.extents,at_.leaf] at order
  rw [at_.leaf] at start
  cases left with
  | nil => exact le_of_eq (by simpa using start.symm)
  | cons first rest =>
    have same : first.eeBlock = key := by simpa using start
    have ahead : Before first ex := order.parts.1.parts.2.1.parts.2.2 first (by simp) ex (by simp)
    unfold Before at ahead
    omega

end

theorem Located.border (at_ : Located root newext.eeBlock c key left ex right) (order : InOrder (extents root.node))
    (valid : newext.Valid) (apart : ∀ e ∈ extents root.node, Apart e newext) (many : 1 < c.leaf.length) :
    key < splitBorder newext right ∧ (right = [] → ex.eeBlock < newext.eeBlock) := by
  have low := at_.key_le order
  obtain ⟨k,_,_,position⟩ := at_.position order valid apart
  cases right with
  | nil =>
    rcases position with ⟨_,behind⟩ | ⟨_,rfl,_⟩
    · exact ⟨low.trans_lt behind,fun _ => behind⟩
    · simp [at_.leaf] at many
  | cons next rest =>
    refine ⟨?_,by simp⟩
    rw [at_.on.extents,at_.leaf] at order
    have tail := order.parts.1.parts.2.1.parts.2.1
    have ahead : Before ex next := (pairwise_cons.mp tail.sorted).1 next (by simp)
    have positive := (tail.valid ex (by simp)).positive
    unfold Before at ahead
    simp only [splitBorder]
    omega

theorem split_ready {node : Tree root.ehDepth} {top : Nat} (at_ : Located root newext.eeBlock c key left ex right)
    (order : InOrder (extents root.node)) (valid : newext.Valid) (apart : ∀ e ∈ extents root.node, Apart e newext)
    (deep : 0 < root.ehDepth) (full : c.leaf.length = ehMax c.path) (nodeOk : NodeOk mlfsExtSpaceRoot top node)
    (whole : leaves top node =
      leavesBefore c.path ++ (key,left ++ [ex]) :: (splitBorder newext right,right) :: leavesAfter c.path) :
    extents node = extents root.node ∧ Ready ⟨root.ehDepth,node⟩ newext := by
  have same : extents node = extents root.node := by
    rw [←leaves_extents top,whole,at_.on.extents,at_.leaf,←leavesBefore_extents,←leavesAfter_extents]
    simp
  refine ⟨same,?_⟩
  rw [ehMax_below c.path deep] at full
  obtain ⟨border,behind⟩ := at_.border order valid apart (by rw [full]; decide)
  have size := full
  rw [at_.leaf,length_append,length_cons] at size
  cases right with
  | cons next rest =>
    have exact : Exact (leaves top node) := by
      rw [whole]
      refine Exact.append.mpr ⟨at_.before,fun l member => ?_⟩
      rcases mem_cons.mp member with rfl | later
      · have start := at_.start
        rw [at_.leaf] at start
        cases left <;> simpa using start
      · rcases mem_cons.mp later with rfl | later
        · rfl
        · exact at_.after l later
    have order' : InOrder (extents node) := same ▸ order
    have keys : KeysSorted (leaves top node) := exact.keysSorted (by rw [leaves_extents]; exact order')
    obtain ⟨c',k',walk,found,pExt,listed⟩ :=
      find_found ⟨root.ehDepth,node⟩ nodeOk keys newext.eeBlock
    have cut : LeafAt newext.eeBlock (leavesBefore c.path) key
        ((splitBorder newext (next :: rest),next :: rest) :: leavesAfter c.path) := by
      refine ⟨at_.cut.early,fun l member => ?_⟩
      rcases mem_cons.mp member with rfl | later
      · exact at_.high next (by simp)
      · exact at_.cut.late l later
    have which : leavesBefore c'.path ++ (k',c'.leaf) :: leavesAfter c'.path =
        leavesBefore c.path ++ (key,left ++ [ex]) ::
          (splitBorder newext (next :: rest),next :: rest) :: leavesAfter c.path := listed.symm.trans whole
    have here : c'.leaf = left ++ [ex] :=
      congrArg Prod.snd (LeafAt.unique which found.cut cut).2.1
    rw [listed] at exact
    obtain ⟨left',ex',right',located⟩ := found.located pExt exact order'
    obtain ⟨k,place,position,_⟩ := located.position order' valid (by rw [same]; exact apart)
    refine ⟨c',k',k,walk,found.on,place,position,?_⟩
    rw [ehMax_below c'.path deep,here,length_append,length_singleton]
    simp only [length_cons] at size
    omega
  | nil =>
    have keys : KeysSorted (leaves top node) := by
      have sorted := at_.keysSorted order
      obtain ⟨_,tail,between⟩ := sorted.parts
      rw [whole]
      simp only [KeysSorted,map_append,map_cons,pairwise_append,pairwise_cons,
        mem_cons,splitBorder] at sorted border ⊢
      have late : ∀ k ∈ List.map Prod.fst (leavesAfter c.path), newext.eeBlock < k := by
        intro k member
        obtain ⟨l,inside,rfl⟩ := mem_map.mp member
        exact at_.cut.late l inside
      refine ⟨sorted.1,⟨?_,late,sorted.2.1.2⟩,?_⟩
      · rintro k (rfl | member)
        · exact border
        · exact border.trans (late k member)
      · rintro a early k (rfl | rfl | member)
        · exact sorted.2.2 a early _ (Or.inl rfl)
        · exact (sorted.2.2 a early _ (Or.inl rfl)).trans border
        · exact sorted.2.2 a early k (Or.inr member)
    obtain ⟨c',k',walk,found,pExt,listed⟩ :=
      find_found ⟨root.ehDepth,node⟩ nodeOk keys newext.eeBlock
    have cut : LeafAt newext.eeBlock (leavesBefore c.path ++ [(key,left ++ [ex])]) newext.eeBlock
        (leavesAfter c.path) := ⟨Or.inr (le_refl _),at_.cut.late⟩
    have which : leavesBefore c'.path ++ (k',c'.leaf) :: leavesAfter c'.path =
        (leavesBefore c.path ++ [(key,left ++ [ex])]) ++ (newext.eeBlock,[]) :: leavesAfter c.path := by
      rw [←listed,whole]
      simp [splitBorder]
    obtain ⟨beforeSame,leafSame,afterSame⟩ := LeafAt.unique which found.cut cut
    have none : c'.leaf = [] := congrArg Prod.snd leafSame
    have exact := at_.exact
    rw [at_.leaf] at exact
    have beforeExtents : extentsBefore c'.path = extentsBefore c.path ++ (left ++ [ex]) := by
      rw [←leavesBefore_extents,beforeSame,←leavesBefore_extents]
      simp
    have afterExtents : extentsAfter c'.path = extentsAfter c.path := by
      rw [←leavesAfter_extents,afterSame,leavesAfter_extents]
    have sorted := order
    rw [at_.on.extents,at_.leaf] at sorted
    refine ⟨c',k',0,walk,found.on,⟨found.path,?_,?_,?_,?_,?_,Or.inl rfl⟩,?_,?_⟩
    · rw [beforeSame]
      refine Exact.append.mpr ⟨at_.before,fun l member => ?_⟩
      cases mem_singleton.mp member
      exact exact (key,left ++ [ex]) (by simp)
    · rw [afterSame]
      exact at_.after
    · rw [beforeExtents,afterExtents,none]
      simpa using sorted
    · intro e member
      rw [beforeExtents,none] at member
      have last := behind rfl
      have listed : e ∈ (extentsBefore c.path ++ left) ++ [ex] := by simpa using member
      rcases mem_append.mp listed with early | final
      · have split : InOrder ((extentsBefore c.path ++ left) ++ ex :: extentsAfter c.path) := by simpa using sorted
        have ahead : Before e ex := split.parts.2.2 e early ex (by simp)
        unfold Before at ahead
        omega
      · cases mem_singleton.mp final
        exact le_of_lt last
    · intro e member
      rw [afterExtents,none] at member
      exact le_of_lt (at_.high e (by simpa using member))
    · rw [insertPosition,pExt,none]
      rfl
    · rw [none,ehMax_below c'.path deep]
      decide

theorem NodeOk.top {room : Nat} {node : Tree d} (ok : NodeOk room key node) (exact : Exact (leaves key node)) :
    topBlock node = some key := by
  cases d with
  | zero => exact exact (key,leafOf node) (by simp [leaves])
  | succ d => exact ok.2.1

theorem growIndepth_ok (treeOk : TreeOk root)
    (nonempty : extents root.node ≠ []) (working : Working sb held)
    (go : Proceeds (1 < sb.free.card) (mlfsExtGrowIndepth root sb)) :
    ∃ grown sb', mlfsExtGrowIndepth root sb = some (grown,sb') ∧ TreeOk grown ∧
      extents grown.node = extents root.node ∧ grown.ehDepth = root.ehDepth + 1 ∧ width grown.node = 1 ∧
      sb.free.card = sb'.free.card + 1 := by
  rcases treeOk.shape with rfl | ⟨top,nodeOk,exact⟩
  · exact absurd rfl nonempty
  · have room : Room sb .tree 1 := by
      rcases go with space | returned
      · exact ⟨space,Or.inl rfl⟩
      · obtain ⟨grown,done⟩ := isSome_iff_exists.mp returned
        obtain ⟨⟨block,sb₁⟩,alloc,_⟩ := bind_eq_some_iff.mp done
        exact working.room_of_alloc alloc
    obtain ⟨block,sb₁,alloc,_⟩ := working.alloc (by simp) (fun _ => rfl) room
    have taken := congrArg Multiset.card (working.take_alloc (fun _ => rfl) alloc).free
    rw [Multiset.card_add,card_span] at taken
    have first := nodeOk.top exact
    refine ⟨⟨root.ehDepth + 1,indexNode [(⟨top,block⟩,root.node)]⟩,markBufferDirty sb₁ block,?_,
      ⟨Or.inr ⟨top,⟨by simp [mlfsExtSpaceRoot],rfl,?_⟩,?_⟩,?_⟩,?_,rfl,rfl,?_⟩
    · rw [mlfsExtGrowIndepth,mlfsNewMetaBlocks,alloc]
      simp [first]
    · intro e member
      cases mem_singleton.mp member
      exact nodeOk.mono (by decide)
    · simpa using exact
    · simpa using treeOk.order
    · simp
    · rw [markBufferDirty_free]
      exact taken

theorem createNewLeaf_ok (treeOk : TreeOk root)
    (at_ : Located root newext.eeBlock c key left ex right) (valid : newext.Valid)
    (apart : ∀ e ∈ extents root.node, Apart e newext) (full : c.leaf.length = ehMax c.path)
    (working : Working sb (held + nodes root.node))
    (go : Proceeds (root.ehDepth + 2 < sb.free.card) (mlfsExtCreateNewLeaf root c newext sb)) :
    ∃ root' sb', mlfsExtCreateNewLeaf root c newext sb = some (root',sb') ∧
      extents root'.node = extents root.node ∧ Ready root' newext := by
  -- A full leaf below the root, split with enough blocks free.
  have split : ∀ {root : ExtRoot} {c : Cursor root.ehDepth} {key : Nat} {left right : List Extent} {ex : Extent}
      {sb : SuperBlock} {held : Multiset Nat} {levels : Nat}, TreeOk root →
      Located root newext.eeBlock c key left ex right → (∀ e ∈ extents root.node, Apart e newext) →
      c.leaf.length = ehMax c.path → levelsToFreeIndex c.path = some levels → Working sb held →
      Proceeds (root.ehDepth < sb.free.card) (mlfsExtSplit c newext levels sb) →
      ∃ root' sb', mlfsExtSplit c newext levels sb = some (root',sb') ∧
        extents root'.node = extents root.node ∧ Ready root' newext := by
    intro root c key left right ex sb held levels treeOk at_ apart full found working go
    have bound := levelsToFreeIndex_lt found
    have deep : 0 < root.ehDepth := by omega
    have many : 1 < c.leaf.length := by
      rw [full,ehMax_below c.path deep]
      decide
    have sorted := at_.keysSorted treeOk.order
    rw [append_cons] at sorted
    obtain ⟨node,sb',done,top,nodeOk,whole⟩ := extSplit_ok at_ sorted.parts.1 full found
      (at_.border treeOk.order valid apart many).1 working (go.of_imp (by omega) id)
    obtain ⟨same,ready⟩ := split_ready at_ treeOk.order valid apart deep full nodeOk whole
    exact ⟨_,sb',done,same,ready⟩
  unfold mlfsExtCreateNewLeaf at go ⊢
  cases found : levelsToFreeIndex c.path with
  | some levels =>
    simp only [found] at go
    exact split treeOk at_ apart full found working (go.of_imp (by omega) id)
  | none =>
    simp only [found] at go
    have nonempty : extents root.node ≠ [] := by
      rw [at_.on.extents,at_.leaf]
      simp
    obtain ⟨grown,sb₁,grow,grownOk,same,depth,one,count⟩ :=
      growIndepth_ok treeOk nonempty working (go.of_imp (by omega) fun none => by simp [none])
    have working₁ : Account.Working ⟨sb₁,held,nodes grown.node⟩ := by
      have moves : Moves .grow ⟨sb,held,0 + nodes root.node⟩ ⟨sb₁,held,0 + nodes grown.node⟩ := (growIndepth_moves grow).1
      rw [zero_add,zero_add] at moves
      exact moves.working working
    obtain ⟨c₁,key₁,left₁,ex₁,right₁,walk,at₁⟩ :=
      grownOk.located (by rw [same]; exact nonempty) newext.eeBlock
    have apart₁ : ∀ e ∈ extents grown.node, Apart e newext := by rw [same]; exact apart
    simp only [grow,walk,bind_eq_bind,bind_some] at go ⊢
    split
    · rename_i full₁
      rw [if_pos full₁] at go
      cases levels : levelsToFreeIndex c₁.path with
      | none =>
        have wide := levels_none levels (by omega) (leafNode c₁.leaf)
        rw [at₁.on,one] at wide
        exact absurd wide (by decide)
      | some n =>
        rw [←same]
        simp only [levels,bind_some] at go
        exact split grownOk at₁ apart₁ full₁ levels working₁ (go.of_imp (by omega) id)
    · rename_i space₁
      obtain ⟨k,place,position,_⟩ := at₁.position grownOk.order valid apart₁
      exact ⟨grown,sb₁,rfl,same,c₁,key₁,k,walk,at₁.on,place,position,Nat.lt_of_le_of_ne at₁.fits space₁⟩

theorem leaves_key (deep : 0 < d) (k k' : Nat) (node : Tree d) : leaves k node = leaves k' node := by
  cases d with
  | zero => exact absurd deep (lt_irrefl 0)
  | succ d => rfl

theorem Found.listed (found : Found root block c key) :
    leaves (rootKey c.path key) root.node = leavesBefore c.path ++ (key,c.leaf) :: leavesAfter c.path := by
  rw [←found.on,leaves_plug found.path]
  simp

theorem siblingWithSpace_ok {npath : Cursor root.ehDepth} (treeOk : TreeOk root)
    (at_ : Located root newext.eeBlock c key left ex right)
    (found : siblingWithSpace root c newext = some npath) :
    npath.On root.node ∧ npath.leaf.length < ehMax npath.path ∧ insertPosition npath newext = some 0 ∧
      ∃ nkey, Place npath.path npath.leaf nkey newext 0 := by
  have on := siblingWithSpace_on found
  unfold siblingWithSpace at found
  obtain ⟨last,final,found⟩ := bind_eq_some_iff.mp found
  split at found
  · rename_i cond
    obtain ⟨behind,further⟩ := cond
    obtain ⟨other,walk,found⟩ := bind_eq_some_iff.mp found
    split at found
    · rename_i space
      cases found
      rw [nextLeafBlock_eq at_.path] at walk further
      cases listed : leavesAfter c.path with
      | nil => simp [listed] at further
      | cons next rest =>
        rw [listed] at walk
        have nonempty : extents root.node ≠ [] := by
          rw [at_.on.extents,at_.leaf]
          simp
        obtain ⟨c',k',left',ex',right',walk',at'⟩ := treeOk.located nonempty next.1
        simp only [head?_cons,map_some,getD_some] at walk
        cases walk.symm.trans walk'
        have sorted := at_.keysSorted treeOk.order
        have cut : LeafAt next.1 (leavesBefore c.path ++ [(key,c.leaf)]) next.1 rest := by
          refine ⟨Or.inr (le_refl _),fun l member => ?_⟩
          rw [listed] at sorted
          have tail : KeysSorted (next :: rest) := (append_cons .. ▸ sorted).parts.2.1
          exact (pairwise_cons.mp tail).1 l.1 (mem_map_of_mem member)
        have deep : 0 < root.ehDepth := by
          by_contra flat
          have shape := at_.toFound.listed
          rw [listed] at shape
          have single : ∀ {d : Nat} (k : Nat) (node : Tree d), ¬ 0 < d → (leaves k node).length = 1 := by
            intro d k node flat
            cases d with
            | zero => rfl
            | succ d => exact absurd (Nat.succ_pos d) flat
          have count := single (rootKey c.path key) root.node flat
          rw [shape] at count
          simp only [length_append,length_cons] at count
          omega
        have which : leavesBefore npath.path ++ (k',npath.leaf) :: leavesAfter npath.path =
            (leavesBefore c.path ++ [(key,c.leaf)]) ++ next :: rest := by
          rw [←at'.toFound.listed,leaves_key deep _ (rootKey c.path key),at_.toFound.listed,listed]
          simp
        obtain ⟨beforeSame,leafSame,_⟩ := LeafAt.unique which at'.cut cut
        subst leafSame
        have beforeExtents : extentsBefore npath.path = extentsBefore c.path ++ c.leaf := by
          rw [←leavesBefore_extents,beforeSame,←leavesBefore_extents]
          simp
        have late : newext.eeBlock < k' := at_.cut.late (k',npath.leaf) (by simp [listed])
        have sortedAll := treeOk.order
        rw [at_.on.extents] at sortedAll
        obtain ⟨init,shape⟩ : ∃ init, c.leaf = init ++ [last] := by
          rcases eq_nil_or_concat c.leaf with none | ⟨init,x,shape⟩
          · rw [none] at final
            cases final
          · rw [shape] at final
            exact ⟨init,by simpa using shape.trans (by simpa using final)⟩
        -- The lookup of the leaf's own key ends at its first extent.
        have first : ex'.eeBlock = k' := by
          refine le_antisymm (at'.low.resolve_left ?_) (at'.key_le treeOk.order)
          rw [beforeExtents,shape]
          simp
        have alone : left' = [] := by
          have start := at'.start
          rw [at'.leaf] at start
          cases left' with
          | nil => rfl
          | cons e more =>
            have same : e.eeBlock = k' := by simpa using start
            have order := treeOk.order
            rw [at'.on.extents,at'.leaf] at order
            have ahead : Before e ex' := order.parts.1.parts.2.1.parts.2.2 e (by simp) ex' (by simp)
            have positive := (order.parts.1.parts.2.1.valid e (by simp)).positive
            unfold Before at ahead
            omega
        subst alone
        have leaf : npath.leaf = ex' :: right' := at'.leaf
        refine ⟨on,space,?_,k',at'.path,at'.before,at'.after,at'.on.extents ▸ treeOk.order,?_,?_,Or.inl rfl⟩
        · rw [insertPosition,at'.place,leaf]
          have notBelow : ¬ ex'.eeBlock < newext.eeBlock := by omega
          have other : newext.eeBlock ≠ ex'.eeBlock := by omega
          simp [notBelow,other]
        · intro e member
          rw [beforeExtents,shape] at member
          rw [shape] at sortedAll
          have listed : e ∈ (extentsBefore c.path ++ init) ++ [last] := by simpa using member
          have split : InOrder ((extentsBefore c.path ++ init) ++ [last]) := by
            have part := sortedAll.parts.1
            rwa [←append_assoc] at part
          rcases mem_append.mp listed with early | final
          · have ahead : Before e last := split.parts.2.2 e early last (by simp)
            unfold Before at ahead
            omega
          · cases mem_singleton.mp final
            exact le_of_lt behind
        · intro e member
          rw [leaf] at member
          have listed : e ∈ ex' :: (right' ++ extentsAfter npath.path) := by simpa using member
          rcases mem_cons.mp listed with rfl | later
          · omega
          · have bound := at'.high e later
            simp only at bound
            omega
    · cases found
  · cases found

theorem Cursor.On.nodes (on : c.On root.node) : nodes root.node = pathNodes c.path := by
  rw [←on,nodes_plug]
  simp

theorem insertExtent_ok (preIo : Bool) (treeOk : TreeOk root)
    (at_ : Located root newext.eeBlock c key left ex right) (valid : newext.Valid)
    (apart : ∀ e ∈ extents root.node, Apart e newext) (working : Working sb (held + nodes root.node))
    (go : Proceeds (root.ehDepth + 2 < sb.free.card) (mlfsExtInsertExtent root c newext preIo sb)) :
    ∃ root' sb', mlfsExtInsertExtent root c newext preIo sb = some (root',sb') ∧ TreeOk root' ∧
      Inserted (extents root.node) newext preIo (extents root'.node) := by
  obtain ⟨k,place,position,side⟩ := at_.position treeOk.order valid apart
  have workingPath := working
  rw [at_.on.nodes] at workingPath
  have apartPath := apart
  rw [at_.on.extents] at apartPath
  have validEx : ex.Valid := treeOk.order.valid ex (by rw [at_.on.extents,at_.leaf]; simp)
  unfold mlfsExtInsertExtent at go ⊢
  rw [if_neg (Nat.ne_of_gt valid.positive),at_.place] at go ⊢
  split
  · -- The extent is put into a neighbour.
    rename_i leaf' near i extended
    split at extended
    · cases extended
    · rename_i notPre
      obtain ⟨⟨leaf₁,near₁⟩,placed,same⟩ := map_eq_some_iff.mp extended
      cases same
      have step := at_.extend valid side validEx placed
      have length : leaf'.length ≤ c.leaf.length := by
        have count := step.length
        simp only [length_append,length_cons,length_take,length_drop] at count
        omega
      rw [at_.on.extents]
      refine place.mergeAndCorrect workingPath valid apartPath (.single step) (fun pre => absurd pre notPre)
        (length.trans at_.fits) ?_
      rcases side with ⟨rfl,_⟩ | ⟨_,rfl,_⟩
      · exact Or.inr (Nat.succ_pos _)
      · exact Or.inl rfl
  · rename_i notExtended
    rw [notExtended] at go
    simp only at go
    unfold insertExtent at go ⊢
    split
    · rename_i free
      rw [at_.on.extents]
      exact insertAt_ok place position free workingPath valid apartPath
    · rename_i notFree
      rw [if_neg notFree] at go
      split
      · rename_i npath found
        obtain ⟨on,free,front,nkey,nplace⟩ := siblingWithSpace_ok treeOk at_ found
        rw [on.extents] at apart ⊢
        rw [on.nodes] at working
        exact insertAt_ok nplace front free working valid apart
      · rename_i noSibling
        simp only [noSibling] at go
        have full : c.leaf.length = ehMax c.path := le_antisymm at_.fits (Nat.le_of_not_lt notFree)
        obtain ⟨root₁,sb₁,created,same,c₁,key₁,k₁,walk,on,place₁,position₁,free⟩ :=
          createNewLeaf_ok treeOk at_ valid apart full working (go.of_imp id fun none => by simp [none])
        have working₁ : Working sb₁ (held + nodes root₁.node) := by
          have moves : Moves .grow ⟨sb,held,0 + nodes root.node⟩ ⟨sb₁,held,0 + nodes root₁.node⟩ :=
            (createNewLeaf_moves at_.on created).1
          rw [zero_add,zero_add] at moves
          exact moves.working working
        simp only [created,walk,bind_eq_bind,bind_some]
        rw [←same,on.extents] at apart ⊢
        rw [on.nodes] at working₁
        exact insertAt_ok place₁ position₁ free working₁ valid apart

theorem insertFirst_ok {c : Cursor 0} (found : mlfsFindExtent ⟨0,leafNode []⟩ newext.eeBlock = some c)
    (valid : newext.Valid) : ∃ sb', mlfsExtInsertExtent ⟨0,leafNode []⟩ c newext false sb =
      some (⟨0,leafNode [newext]⟩,sb') ∧ TreeOk ⟨0,leafNode [newext]⟩ := by
  have same : c = ⟨.root,[],none⟩ := by simpa [mlfsFindExtent,descend,mlfsExtBinsearch] using found.symm
  subst same
  refine ⟨sb,?_,leaf_root_ok (by simp [mlfsExtSpaceRoot]) (by simp) ⟨?_,pairwise_singleton ..⟩⟩
  · rw [mlfsExtInsertExtent,if_neg (Nat.ne_of_gt valid.positive)]
    rfl
  · intro e member
    cases mem_singleton.mp member
    exact valid

end Full

end Assise.Extents
