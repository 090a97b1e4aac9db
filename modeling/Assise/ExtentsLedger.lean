import Assise.Extents
import Assise.Ledger

-- Which blocks a tree holds, and that every operation on it moves them through the allocator:
-- nothing here depends on the order of extents or keys.
namespace Assise.Extents

open Balloc Lib.Spans Option Multiset

def extents : {d : Nat} → Tree d → List Extent
  | 0,leaf => leafOf leaf
  | _ + 1,node => (entriesOf node).flatMap fun e => extents e.2

def extentBlocks (es : List Extent) : Multiset Nat := (es.map fun e => span e.eeStart e.eeLen).sum

def nodes : {d : Nat} → Tree d → Multiset Nat
  | 0,_ => 0
  | _ + 1,node => ((entriesOf node).map fun e => {e.1.eiLeaf} + nodes e.2).sum

def entryNodes {d : Nat} (entries : List (ExtentIdx × Tree d)) : Multiset Nat :=
  (entries.map fun e => {e.1.eiLeaf} + nodes e.2).sum

def entryExtents {d : Nat} (entries : List (ExtentIdx × Tree d)) : List Extent :=
  entries.flatMap fun e => extents e.2

@[simp] theorem extents_leaf (leaf : List Extent) : extents (leafNode leaf) = leaf := rfl
@[simp] theorem extents_index {d : Nat} (entries : List (ExtentIdx × Tree d)) :
    extents (indexNode entries) = entryExtents entries := rfl
@[simp] theorem nodes_leaf (leaf : List Extent) : nodes (leafNode leaf) = 0 := rfl
@[simp] theorem nodes_index {d : Nat} (entries : List (ExtentIdx × Tree d)) :
    nodes (indexNode entries) = entryNodes entries := rfl

@[simp] theorem extentBlocks_nil : extentBlocks [] = 0 := rfl
@[simp] theorem extentBlocks_cons (e : Extent) (es : List Extent) :
    extentBlocks (e :: es) = span e.eeStart e.eeLen + extentBlocks es := rfl
@[simp] theorem extentBlocks_append (es fs : List Extent) :
    extentBlocks (es ++ fs) = extentBlocks es + extentBlocks fs := by simp [extentBlocks]
@[simp] theorem extentBlocks_reverse (es : List Extent) : extentBlocks es.reverse = extentBlocks es := by
  simp [extentBlocks,List.sum_reverse]

section Entries
variable {d : Nat}

@[simp] theorem entryNodes_nil : entryNodes ([] : List (ExtentIdx × Tree d)) = 0 := rfl
@[simp] theorem entryNodes_cons (e : ExtentIdx × Tree d) (rest : List (ExtentIdx × Tree d)) :
    entryNodes (e :: rest) = {e.1.eiLeaf} + nodes e.2 + entryNodes rest := rfl
@[simp] theorem entryNodes_append (left right : List (ExtentIdx × Tree d)) :
    entryNodes (left ++ right) = entryNodes left + entryNodes right := by simp [entryNodes]
@[simp] theorem entryNodes_reverse (entries : List (ExtentIdx × Tree d)) :
    entryNodes entries.reverse = entryNodes entries := by simp [entryNodes,List.sum_reverse]

@[simp] theorem entryExtents_nil : entryExtents ([] : List (ExtentIdx × Tree d)) = [] := rfl
@[simp] theorem entryExtents_cons (e : ExtentIdx × Tree d) (rest : List (ExtentIdx × Tree d)) :
    entryExtents (e :: rest) = extents e.2 ++ entryExtents rest := rfl
@[simp] theorem entryExtents_append (left right : List (ExtentIdx × Tree d)) :
    entryExtents (left ++ right) = entryExtents left ++ entryExtents right := by simp [entryExtents]

end Entries

def pathNodes : {d top : Nat} → ExtPath d top → Multiset Nat
  | _,_,.root => 0
  | _,_,.under left pIdx right up => entryNodes left + {pIdx.eiLeaf} + entryNodes right + pathNodes up

def extentsBefore : {d top : Nat} → ExtPath d top → List Extent
  | _,_,.root => []
  | _,_,.under left _ _ up => extentsBefore up ++ entryExtents left

def extentsAfter : {d top : Nat} → ExtPath d top → List Extent
  | _,_,.root => []
  | _,_,.under _ _ right up => entryExtents right ++ extentsAfter up

variable {root root' : ExtRoot} {d top : Nat}

theorem nodes_plug (path : ExtPath d top) (node : Tree d) :
    nodes (plug path node) = nodes node + pathNodes path := by
  induction path with
  | root => simp [plug,pathNodes]
  | under left pIdx right up ih =>
    rw [plug,ih,nodes_index]
    simp only [entryNodes_append,entryNodes_cons,pathNodes]
    abel

theorem extents_plug (path : ExtPath d top) (node : Tree d) :
    extents (plug path node) = extentsBefore path ++ extents node ++ extentsAfter path := by
  induction path with
  | root => simp [plug,extentsBefore,extentsAfter]
  | under left pIdx right up ih =>
    rw [plug,ih,extents_index]
    simp [extentsBefore,extentsAfter]

variable {top block near i : Nat} {leaf x y leaf' : List Extent} {newext : Extent}

theorem pBh_node {path : ExtPath d top} (bh : pBh path = some block) :
    block ∈ pathNodes path := by
  cases path with
  | root => cases bh
  | under left pIdx right up =>
    cases bh
    simp [pathNodes]

def Cursor.On {top : Nat} (c : Cursor top) (node : Tree top) : Prop := plug c.path (leafNode c.leaf) = node

theorem descend_plug {node : Tree d} {path : ExtPath d top} {place : ExtPath 0 top} (found : descend block node path = some (place,leaf)) :
    plug place (leafNode leaf) = plug path node := by
  induction d with
  | zero =>
    cases found
    rfl
  | succ d ih =>
    unfold descend at found
    simp only at found
    split at found
    · cases found
    · rename_i pIdx child at_
      rw [ih found,plug]
      congr 1
      have split := List.take_append_drop (mlfsExtBinsearchIdx (entriesOf node) block) (entriesOf node)
      rw [List.drop_eq_getElem?_toList_append,at_] at split
      exact split

variable {c : Cursor root.ehDepth}

theorem findExtent_on
    (found : mlfsFindExtent root block = some c) : c.On root.node := by
  obtain ⟨⟨path,leaf⟩,walk,rfl⟩ := map_eq_some_iff.mp found
  exact descend_plug walk

inductive MergeStep : List Extent → List Extent → Prop where
  | join (before : List Extent) (a b : Extent) (after : List Extent) (can : mlfsCanExtentsBeMerged a b = true) :
      MergeStep (before ++ a :: b :: after) (before ++ {a with eeLen := a.eeLen + b.eeLen} :: after)

def Merges : List Extent → List Extent → Prop := Relation.ReflTransGen MergeStep

theorem MergeStep.within (step : MergeStep x y) (before after : List Extent) :
    MergeStep (before ++ x ++ after) (before ++ y ++ after) := by
  cases step with
  | join front a b back can =>
    have moved := MergeStep.join (before ++ front) a b (back ++ after) can
    simpa using moved

theorem Merges.within (merges : Merges x y) (before after : List Extent) :
    Merges (before ++ x ++ after) (before ++ y ++ after) := by
  induction merges with
  | refl => exact .refl
  | tail _ step ih => exact ih.tail (step.within before after)

theorem canMerge_parts {a b : Extent} (can : mlfsCanExtentsBeMerged a b = true) :
    a.eeBlock + a.eeLen = b.eeBlock ∧ a.eeLen + b.eeLen ≤ extInitMaxLen ∧ a.eeStart + a.eeLen = b.eeStart := by
  simpa [mlfsCanExtentsBeMerged,and_assoc] using can

theorem MergeStep.blocks (step : MergeStep x y) : extentBlocks y = extentBlocks x := by
  cases step with
  | join front a b back can =>
    obtain ⟨_,_,start⟩ := canMerge_parts can
    simp only [extentBlocks_append,extentBlocks_cons,span_add,start]
    abel

theorem Merges.blocks (merges : Merges x y) : extentBlocks y = extentBlocks x := by
  induction merges with
  | refl => rfl
  | tail _ step ih => rw [step.blocks,ih]

theorem mergeRun_merges (ex : Extent) (rest : List Extent) :
    Merges (ex :: rest) ((mergeRun ex rest).1 :: (mergeRun ex rest).2) := by
  induction rest generalizing ex with
  | nil => exact .refl
  | cons next rest ih =>
    unfold mergeRun
    split
    · rename_i can
      exact .head (MergeStep.join [] ex next rest can) (ih _)
    · exact .refl

theorem tryToMergeRight_merges (leaf : List Extent) (i : Nat) :
    Merges leaf (mlfsExtTryToMergeRight leaf i).1 := by
  unfold mlfsExtTryToMergeRight
  split
  · exact .refl
  · rename_i ex rest shape
    have merged := (mergeRun_merges ex rest).within (leaf.take i) []
    rw [←shape,List.append_nil,List.take_append_drop,List.append_nil] at merged
    exact merged

theorem tryToMerge_merges (leaf : List Extent) (near : Nat) : Merges leaf (mlfsExtTryToMerge leaf near) := by
  unfold mlfsExtTryToMerge
  have left : Merges leaf (if 0 < near then mlfsExtTryToMergeRight leaf (near - 1) else (leaf,false)).1 := by
    split
    · exact tryToMergeRight_merges leaf (near - 1)
    · exact .refl
  generalize (if 0 < near then mlfsExtTryToMergeRight leaf (near - 1) else (leaf,false)) = first at left ⊢
  simp only
  split
  · exact left
  · exact left.trans (tryToMergeRight_merges _ near)

theorem prependTo_merges {leaf leaf' : List Extent} {newext : Extent} {j near : Nat}
    (placed : prependTo leaf newext j = some (leaf',near)) :
    j < leaf.length ∧ MergeStep (leaf.take j ++ newext :: leaf.drop j) leaf' ∧
      ∀ ex, leaf[j]? = some ex → newext.eeBlock + newext.eeLen = ex.eeBlock := by
  unfold prependTo at placed
  obtain ⟨ex,at_,placed⟩ := bind_eq_some_iff.mp placed
  split at placed
  · rename_i can
    cases placed
    obtain ⟨inside,rfl⟩ := List.getElem?_eq_some_iff.mp at_
    refine ⟨inside,?_,?_⟩
    · have step := MergeStep.join (leaf.take j) newext leaf[j] (leaf.drop (j + 1)) can
      rw [List.set_eq_take_append_cons_drop,if_pos inside,List.drop_eq_getElem_cons inside]
      simpa only [add_comm] using step
    · intro other same
      cases at_.symm.trans same
      exact (canMerge_parts can).1
  · cases placed

theorem extendExtent_merges
    (placed : extendExtent leaf i newext = some (leaf',near)) :
    ∃ k, k ≤ leaf.length ∧ MergeStep (leaf.take k ++ newext :: leaf.drop k) leaf' ∧
      ∀ ex, leaf[i]? = some ex → i = 0 ∨ ex.eeBlock ≤ newext.eeBlock →
        k = i + 1 ∧ ex.eeBlock + ex.eeLen ≤ newext.eeBlock ∨
          k = i ∧ newext.eeBlock + newext.eeLen = ex.eeBlock := by
  unfold extendExtent at placed
  obtain ⟨ex,at_,placed⟩ := bind_eq_some_iff.mp placed
  split at placed
  · rename_i behind
    obtain ⟨inside,step,_⟩ := prependTo_merges placed
    refine ⟨i + 1,le_of_lt inside,step,?_⟩
    intro other same _
    cases at_.symm.trans same
    exact Or.inl ⟨rfl,le_of_lt behind.2⟩
  · obtain ⟨ex',at',placed⟩ := bind_eq_some_iff.mp placed
    have here : i = 0 ∨ ex.eeBlock ≤ newext.eeBlock →
        (if 0 < i ∧ newext.eeBlock + newext.eeLen < ex.eeBlock then i - 1 else i) = i := by
      intro close
      exact if_neg (by omega)
    generalize (if 0 < i ∧ newext.eeBlock + newext.eeLen < ex.eeBlock then i - 1 else i) = j at at' placed here
    split at placed
    · rename_i can
      cases placed
      obtain ⟨inside,rfl⟩ := List.getElem?_eq_some_iff.mp at'
      refine ⟨near + 1,inside,?_,?_⟩
      · have step := MergeStep.join (leaf.take near) leaf[near] newext (leaf.drop (near + 1)) can
        rw [List.set_eq_take_append_cons_drop,if_pos inside,List.take_succ_eq_append_getElem inside,
          List.append_assoc]
        exact step
      · intro other same close
        cases at_.symm.trans same
        cases here close
        cases at_.symm.trans at'
        exact Or.inl ⟨rfl,le_of_eq (canMerge_parts can).1⟩
    · obtain ⟨inside,step,adjacent⟩ := prependTo_merges placed
      refine ⟨j,le_of_lt inside,step,?_⟩
      intro other same close
      cases at_.symm.trans same
      cases here close
      exact Or.inr ⟨rfl,adjacent ex at_⟩

section Moves
variable {phase : Phase} {sb sb' : SuperBlock} {data held : Multiset Nat}

theorem mark_moves (node : block ∈ held) :
    Moves phase ⟨sb,data,held⟩ ⟨markBufferDirty sb block,data,held⟩ :=
  .single (.mark node)

variable {bh key : Option Nat} {preIo : Bool} {stop start : Nat} {node : Tree top}

theorem dirtyNode_moves (node : ∀ block, bh = some block → block ∈ held) :
    Moves phase ⟨sb,data,held⟩ ⟨dirtyNode bh sb,data,held⟩ := by
  cases bh with
  | none => exact .refl
  | some block => exact mark_moves (node block rfl)

theorem extDirty_moves {path : ExtPath d top} (inside : pathNodes path ≤ held) :
    Moves phase ⟨sb,data,held⟩ ⟨mlfsExtDirty path sb,data,held⟩ :=
  dirtyNode_moves fun _ bh => mem_of_le inside (pBh_node bh)

theorem correctKeys_frame (border : Nat) (path : ExtPath d top) (sb : SuperBlock) :
    pathNodes (correctKeys border path sb).1 = pathNodes path ∧
      extentsBefore (correctKeys border path sb).1 = extentsBefore path ∧
      extentsAfter (correctKeys border path sb).1 = extentsAfter path ∧
      pBh (correctKeys border path sb).1 = pBh path := by
  induction path generalizing sb with
  | root => exact ⟨rfl,rfl,rfl,rfl⟩
  | under left pIdx right up ih =>
    cases left with
    | nil =>
      obtain ⟨blocks,before,after,_⟩ := ih (mlfsExtDirty up sb)
      simp only [correctKeys,pathNodes,extentsBefore,extentsAfter,pBh,blocks,before,after,and_self]
    | cons first left => exact ⟨rfl,rfl,rfl,rfl⟩

theorem correctKeys_moves (sb : SuperBlock) (data : Multiset Nat) (border : Nat) {path : ExtPath d top} (inside : pathNodes path ≤ held) :
    Moves .grow ⟨sb,data,held⟩ ⟨(correctKeys border path sb).2,data,held⟩ := by
  induction path generalizing sb with
  | root => exact .refl
  | under left pIdx right up ih =>
    have above : pathNodes up ≤ held := le_trans (le_add_left _ _) inside
    cases left with
    | nil => exact (extDirty_moves above).trans (ih _ above)
    | cons first left => exact extDirty_moves above

theorem correctAndDirty_moves {path : ExtPath 0 top} {pExt : Nat}
    (inside : pathNodes path ≤ held) (done : correctAndDirty path leaf pExt sb = some (root,sb')) :
    Moves .grow ⟨sb,data,held⟩ ⟨sb',data,held⟩ ∧ nodes root.node = pathNodes path ∧
      extents root.node = extentsBefore path ++ leaf ++ extentsAfter path := by
  unfold correctAndDirty at done
  obtain ⟨⟨path',sb₁⟩,corrected,done⟩ := bind_eq_some_iff.mp done
  cases done
  have frame : Moves .grow ⟨sb,data,held⟩ ⟨sb₁,data,held⟩ ∧ pathNodes path' = pathNodes path ∧
      extentsBefore path' = extentsBefore path ∧ extentsAfter path' = extentsAfter path := by
    unfold mlfsExtCorrectIndexes at corrected
    split at corrected
    · rename_i first rest
      obtain ⟨blocks,before,after,_⟩ := correctKeys_frame first.eeBlock path sb
      have moves := correctKeys_moves sb data first.eeBlock inside
      rw [Option.some.inj corrected] at blocks before after moves
      exact ⟨moves,blocks,before,after⟩
    · cases corrected
    · cases corrected
      exact ⟨.refl,rfl,rfl,rfl⟩
  obtain ⟨moves,blocks,before,after⟩ := frame
  refine ⟨moves.trans (extDirty_moves (blocks ▸ inside)),?_,?_⟩
  · rw [nodes_plug,nodes_leaf,zero_add,blocks]
  · rw [extents_plug,extents_leaf,before,after]

theorem onlyLeaf_parts {path : ExtPath 0 top} {blk : Nat} (only : onlyLeaf path = some blk) :
    pathNodes path = {blk} ∧ extentsBefore path = [] ∧ extentsAfter path = [] := by
  unfold onlyLeaf at only
  split at only
  · cases only
    simp [pathNodes,extentsBefore,extentsAfter]
  · cases only

theorem mergeAndCorrect_moves {path : ExtPath 0 top} {pExt : Nat}
    (done : mergeAndCorrect path leaf near pExt preIo sb = some (root,sb')) :
    Moves .grow ⟨sb,data,held + pathNodes path⟩ ⟨sb',data,held + nodes root.node⟩ ∧
      ∃ leaf', Merges leaf leaf' ∧ extents root.node = extentsBefore path ++ leaf' ++ extentsAfter path := by
  have inside : pathNodes path ≤ held + pathNodes path := le_add_left _ _
  have stays : ∀ leaf', Merges leaf leaf' → correctAndDirty path leaf' pExt sb = some (root,sb') →
      Moves .grow ⟨sb,data,held + pathNodes path⟩ ⟨sb',data,held + nodes root.node⟩ ∧
        ∃ leaf', Merges leaf leaf' ∧ extents root.node = extentsBefore path ++ leaf' ++ extentsAfter path := by
    intro leaf' merged corrected
    obtain ⟨moves,blocks,shape⟩ := correctAndDirty_moves inside corrected
    rw [blocks]
    exact ⟨moves,leaf',merged,shape⟩
  unfold mergeAndCorrect at done
  have merged := tryToMerge_merges leaf near
  split at done
  · exact stays leaf .refl done
  · simp only at done
    split at done
    · rename_i blk only
      split at done
      · obtain ⟨sb₁,freed,done⟩ := bind_eq_some_iff.mp done
        cases done
        obtain ⟨blocks,before,after⟩ := onlyLeaf_parts only
        rw [blocks,before,after,nodes_leaf,add_zero]
        exact ⟨.single (.dropNode freed),_,merged,by simp⟩
      · exact stays _ merged done
    · exact stays _ merged done

theorem insertAt_moves {c : Cursor top}
    (done : insertAt c newext preIo sb = some (root,sb')) :
    Moves .grow ⟨sb,data,held + pathNodes c.path⟩ ⟨sb',data,held + nodes root.node⟩ ∧
      ∃ near leaf', Merges (c.leaf.take near ++ newext :: c.leaf.drop near) leaf' ∧
        extents root.node = extentsBefore c.path ++ leaf' ++ extentsAfter c.path := by
  unfold insertAt at done
  obtain ⟨near,_,done⟩ := bind_eq_some_iff.mp done
  obtain ⟨moves,leaf',merged,shape⟩ := mergeAndCorrect_moves done
  exact ⟨moves,near,leaf',merged,shape⟩

theorem allocNodes_moves {n : Nat} {blocks : List Nat} (done : allocNodes n sb = some (blocks,sb')) :
    Moves .grow ⟨sb,data,held⟩ ⟨sb',data,held + (blocks : Multiset Nat)⟩ ∧ blocks.length = n := by
  induction n generalizing sb held blocks with
  | zero =>
    cases done
    rw [coe_nil,add_zero]
    exact ⟨.refl,rfl⟩
  | succ n ih =>
    unfold allocNodes at done
    obtain ⟨⟨block,sb₁⟩,alloc,done⟩ := bind_eq_some_iff.mp done
    obtain ⟨⟨rest,sb₂⟩,more,done⟩ := bind_eq_some_iff.mp done
    cases done
    have later : Moves .grow ⟨sb₁,data,held + {block}⟩ _ ∧ rest.length = n := ih more
    obtain ⟨moves,count⟩ := later
    refine ⟨.head (.takeNode alloc) ?_,by simp [count]⟩
    rw [add_assoc,singleton_add,cons_coe] at moves
    exact moves

theorem levelsToFreeIndex_under {d levels : Nat} {left right : List (ExtentIdx × Tree d)} {pIdx : ExtentIdx}
    {up : ExtPath (d + 1) top} (full : ¬ left.length + 1 + right.length < ehMax up)
    (found : levelsToFreeIndex (.under left pIdx right up) = some levels) :
    ∃ rest, levelsToFreeIndex up = some rest ∧ levels = rest + 1 := by
  unfold levelsToFreeIndex at found
  rw [if_neg full] at found
  obtain ⟨rest,above,same⟩ := map_eq_some_iff.mp found
  exact ⟨rest,above,same.symm⟩

theorem splitUp_moves {border d : Nat} {path : ExtPath d top} {old new : Tree d} {newblock : Nat}
    {ablocks : List Nat} (room : levelsToFreeIndex path = some ablocks.length)
    (inside : pathNodes path + {newblock} + (ablocks : Multiset Nat) ≤ held)
    (done : splitUp border path old newblock new ablocks sb = some (node,sb')) :
    Moves .grow ⟨sb,data,held⟩ ⟨sb',data,held⟩ ∧
      nodes node = nodes old + nodes new + {newblock} + (ablocks : Multiset Nat) + pathNodes path ∧
      extentBlocks (extents node) = extentBlocks (extentsBefore path) + extentBlocks (extents old) +
        extentBlocks (extents new) + extentBlocks (extentsAfter path) := by
  induction path generalizing sb newblock ablocks with
  | root => cases room
  | under left pIdx right up ih =>
    have above : pathNodes up ≤ held := by
      refine le_trans ?_ inside
      simp only [pathNodes]
      exact le_trans (le_add_left _ _) (le_trans (le_add_right _ _) (le_add_right _ _))
    unfold splitUp at done
    simp only at done
    split at done
    · rename_i free
      have none : ablocks = [] := by
        unfold levelsToFreeIndex at room
        rw [if_pos free] at room
        cases ablocks with
        | nil => rfl
        | cons block rest => simp at room
      subst none
      split at done
      · cases done
      · split at done
        all_goals
          cases done
          refine ⟨extDirty_moves above,?_,?_⟩
          · rw [nodes_plug,nodes_index]
            simp only [entryNodes_append,entryNodes_cons,pathNodes,coe_nil,add_zero]
            abel
          · rw [extents_plug,extents_index]
            simp only [extentsBefore,extentsAfter,entryExtents_append,entryExtents_cons,extentBlocks_append]
            abel
    · rename_i full
      split at done
      · cases done
      · rename_i block rest
        obtain ⟨levels,found,count⟩ := levelsToFreeIndex_under full room
        have block_in : block ∈ held := by
          refine mem_of_le inside ?_
          simp
        have marked : Moves .grow ⟨sb,data,held⟩
            ⟨if right = [] then markBufferDirty sb block else mlfsExtDirty up (markBufferDirty sb block),data,held⟩ := by
          split
          · exact mark_moves block_in
          · exact (mark_moves block_in).trans (extDirty_moves above)
        have count' : levelsToFreeIndex up = some rest.length := by
          rw [found]
          simpa using count.symm
        have rest_in : pathNodes up + {block} + (rest : Multiset Nat) ≤ held := by
          refine le_trans ?_ inside
          have shape : pathNodes (.under left pIdx right up) + {newblock} + ((block :: rest : List Nat) : Multiset Nat) =
              (entryNodes left + {pIdx.eiLeaf} + entryNodes right + {newblock}) +
                (pathNodes up + {block} + (rest : Multiset Nat)) := by
            rw [←cons_coe,←singleton_add]
            simp only [pathNodes]
            abel
          rw [shape]
          exact le_add_left _ _
        obtain ⟨moves,blocks,data'⟩ := ih count' rest_in done
        refine ⟨marked.trans moves,?_,?_⟩
        · rw [blocks,←cons_coe,←singleton_add]
          simp only [nodes_index,entryNodes_append,entryNodes_cons,entryNodes_nil,pathNodes]
          abel
        · rw [data']
          simp only [extents_index,extentsBefore,extentsAfter,entryExtents_append,entryExtents_cons,
            entryExtents_nil,extentBlocks_append,extentBlocks_nil]
          abel

theorem extSplit_moves {levels : Nat} {c : Cursor top}
    (on : c.On node) (room : levelsToFreeIndex c.path = some levels)
    (done : mlfsExtSplit c newext levels sb = some (root,sb')) :
    Moves .grow ⟨sb,data,held + nodes node⟩ ⟨sb',data,held + nodes root.node⟩ ∧
      extentBlocks (extents root.node) = extentBlocks (extents node) := by
  unfold mlfsExtSplit at done
  obtain ⟨i,_,done⟩ := bind_eq_some_iff.mp done
  split at done
  · cases done
  · simp only at done
    obtain ⟨⟨ablocks,sb₁⟩,alloc,done⟩ := bind_eq_some_iff.mp done
    have taken : Moves .grow ⟨sb,data,held + nodes node⟩ ⟨sb₁,data,held + nodes node + (ablocks : Multiset Nat)⟩ ∧ _ :=
      allocNodes_moves alloc
    obtain ⟨taken,count⟩ := taken
    split at done
    · cases done
    · rename_i newblock rest shape
      obtain ⟨⟨node',sb₂⟩,split,done⟩ := bind_eq_some_iff.mp done
      cases done
      have all : (ablocks : Multiset Nat) = {newblock} + (rest : Multiset Nat) := by
        rw [←coe_reverse,shape,singleton_add,cons_coe]
      have tree : nodes node = pathNodes c.path := by
        rw [←on,nodes_plug,nodes_leaf,zero_add]
      have inside : pathNodes c.path + {newblock} + (rest : Multiset Nat) ≤
          held + nodes node + (ablocks : Multiset Nat) := by
        rw [tree,all,add_assoc,add_assoc]
        exact le_add_left _ _
      have newIn : newblock ∈ held + nodes node + (ablocks : Multiset Nat) := by
        rw [all]
        simp
      have pathIn : pathNodes c.path ≤ held + nodes node + (ablocks : Multiset Nat) := by
        rw [add_assoc] at inside
        exact le_trans (le_add_right _ _) inside
      have marked : Moves .grow ⟨sb₁,data,held + nodes node + (ablocks : Multiset Nat)⟩
          ⟨if c.leaf.drop (i + 1) = [] then markBufferDirty sb₁ newblock
            else mlfsExtDirty c.path (markBufferDirty sb₁ newblock),
            data,held + nodes node + (ablocks : Multiset Nat)⟩ := by
        split
        · exact mark_moves newIn
        · exact (mark_moves newIn).trans (extDirty_moves pathIn)
      have levelCount : levelsToFreeIndex c.path = some rest.length := by
        rw [room]
        have lengths := congrArg List.length shape
        simp only [List.length_reverse,List.length_cons,count] at lengths
        exact congrArg some (by omega)
      obtain ⟨moves,blocks,extentsKept⟩ := splitUp_moves levelCount inside split
      have total : held + nodes node' = held + nodes node + (ablocks : Multiset Nat) := by
        rw [blocks,tree,all,nodes_leaf,nodes_leaf]
        abel
      refine ⟨(taken.trans marked).trans ?_,?_⟩
      · rw [total]
        exact moves
      · rw [extentsKept,←on,extents_plug]
        simp only [extents_leaf,extentBlocks_append]
        conv_rhs => rw [←List.take_append_drop (i + 1) c.leaf,extentBlocks_append]
        abel

theorem growIndepth_moves (done : mlfsExtGrowIndepth root sb = some (root',sb')) :
    Moves .grow ⟨sb,data,held + nodes root.node⟩ ⟨sb',data,held + nodes root'.node⟩ ∧
      extents root'.node = extents root.node := by
  unfold mlfsExtGrowIndepth at done
  obtain ⟨⟨newblock,sb₁⟩,alloc,done⟩ := bind_eq_some_iff.mp done
  obtain ⟨first,_,done⟩ := bind_eq_some_iff.mp done
  cases done
  have shape : held + nodes (indexNode [((⟨first,newblock⟩ : ExtentIdx),root.node)]) =
      held + nodes root.node + {newblock} := by
    simp only [nodes_index,entryNodes_cons,entryNodes_nil]
    abel
  constructor
  · simp only
    rw [shape]
    exact .tail (.single (.takeNode alloc)) (.mark (by simp))
  · simp [extents_index]

theorem createNewLeaf_moves
    (on : c.On root.node) (done : mlfsExtCreateNewLeaf root c newext sb = some (root',sb')) :
    Moves .grow ⟨sb,data,held + nodes root.node⟩ ⟨sb',data,held + nodes root'.node⟩ ∧
      extentBlocks (extents root'.node) = extentBlocks (extents root.node) := by
  unfold mlfsExtCreateNewLeaf at done
  split at done
  · rename_i levels room
    exact extSplit_moves on room done
  · obtain ⟨⟨grown,sb₁⟩,growth,done⟩ := bind_eq_some_iff.mp done
    obtain ⟨grew,same⟩ := growIndepth_moves growth
    obtain ⟨c',found,done⟩ := bind_eq_some_iff.mp done
    split at done
    · obtain ⟨levels,room,done⟩ := bind_eq_some_iff.mp done
      obtain ⟨moves,kept⟩ := extSplit_moves (findExtent_on found) room done
      exact ⟨grew.trans moves,by rw [kept,same]⟩
    · cases done
      exact ⟨grew,by rw [same]⟩

theorem siblingWithSpace_on {c npath : Cursor root.ehDepth}
    (found : siblingWithSpace root c newext = some npath) : npath.On root.node := by
  unfold siblingWithSpace at found
  obtain ⟨last,_,found⟩ := bind_eq_some_iff.mp found
  split at found
  · obtain ⟨npath',at_,found⟩ := bind_eq_some_iff.mp found
    split at found
    · cases found
      exact findExtent_on at_
    · cases found
  · cases found

theorem insertAt_blocks
    (on : c.On root.node) (done : insertAt c newext preIo sb = some (root',sb')) :
    Moves .grow ⟨sb,data,held + nodes root.node⟩ ⟨sb',data,held + nodes root'.node⟩ ∧
      extentBlocks (extents root'.node) = extentBlocks (extents root.node) + span newext.eeStart newext.eeLen := by
  obtain ⟨moves,near,leaf',merged,shape⟩ := insertAt_moves done
  constructor
  · rw [←on,nodes_plug,nodes_leaf,zero_add]
    exact moves
  · rw [shape,←on,extents_plug]
    simp only [extentBlocks_append,merged.blocks,extentBlocks_cons,extents_leaf]
    conv_rhs => rw [←List.take_append_drop near c.leaf,extentBlocks_append]
    abel

theorem insertExtent_blocks
    (on : c.On root.node) (done : mlfsExtInsertExtent root c newext preIo sb = some (root',sb')) :
    Moves .grow ⟨sb,data,held + nodes root.node⟩ ⟨sb',data,held + nodes root'.node⟩ ∧
      extentBlocks (extents root'.node) = extentBlocks (extents root.node) + span newext.eeStart newext.eeLen := by
  unfold mlfsExtInsertExtent at done
  split at done
  · cases done
  · split at done
    · rename_i leaf near i extended
      obtain ⟨k,_,step⟩ : ∃ k, k ≤ c.leaf.length ∧ MergeStep (c.leaf.take k ++ newext :: c.leaf.drop k) leaf := by
        split at extended
        · cases extended
        · obtain ⟨i',_,extended⟩ := bind_eq_some_iff.mp extended
          obtain ⟨⟨leaf',near'⟩,placed,same⟩ := map_eq_some_iff.mp extended
          cases same
          obtain ⟨k,inside,step,_⟩ := extendExtent_merges placed
          exact ⟨k,inside,step⟩
      obtain ⟨moves,leaf',merged,shape⟩ := mergeAndCorrect_moves done
      constructor
      · rw [←on,nodes_plug,nodes_leaf,zero_add]
        exact moves
      · rw [shape,←on,extents_plug]
        simp only [extentBlocks_append,merged.blocks,step.blocks,extentBlocks_cons,extents_leaf]
        conv_rhs => rw [←List.take_append_drop k c.leaf,extentBlocks_append]
        abel
    · unfold insertExtent at done
      split at done
      · exact insertAt_blocks on done
      · split at done
        · rename_i npath found
          exact insertAt_blocks (siblingWithSpace_on found) done
        · obtain ⟨⟨root₁,sb₁⟩,created,done⟩ := bind_eq_some_iff.mp done
          obtain ⟨c₁,found,done⟩ := bind_eq_some_iff.mp done
          obtain ⟨grown,same⟩ := createNewLeaf_moves on created
          obtain ⟨placed,sum⟩ := insertAt_blocks (findExtent_on found) done
          exact ⟨grown.trans placed,by rw [sum,same]⟩

theorem rmExtents_moves {es kept : List Extent} {first : Bool}
    (node : ∀ block, bh = some block → block ∈ held)
    (done : rmExtents start stop bh es sb = some (kept,first,sb')) :
    Moves .shrink ⟨sb,data + extentBlocks es,held⟩ ⟨sb',data + extentBlocks kept,held⟩ := by
  induction es generalizing sb data kept first with
  | nil =>
    cases done
    exact .refl
  | cons ex before ih =>
    unfold rmExtents at done
    split at done
    · cases done
      exact .refl
    · rename_i late
      split at done
      · obtain ⟨⟨kept',first',sb₁⟩,inner,done⟩ := bind_eq_some_iff.mp done
        cases done
        have moves : Moves .shrink ⟨sb,data + span ex.eeStart ex.eeLen + extentBlocks before,held⟩ _ := ih inner
        rwa [add_assoc,add_assoc] at moves
      · split at done
        · cases done
        · simp only at done
          obtain ⟨sb₁,freed,done⟩ := bind_eq_some_iff.mp done
          obtain ⟨⟨kept',first',sb₂⟩,inner,done⟩ := bind_eq_some_iff.mp done
          cases done
          generalize count : max ex.eeBlock start - ex.eeBlock = num at freed
          have short : num ≤ ex.eeLen := by omega
          -- The tail goes back; the head, if any, stays as an extent.
          have cut : span ex.eeStart ex.eeLen =
              span ex.eeStart num + span (ex.eeStart + num) (ex.eeLen - num) := span_cut short
          have given : Moves .shrink ⟨sb,data + extentBlocks (ex :: before),held⟩
              ⟨sb₁,data + span ex.eeStart num + extentBlocks before,held⟩ := by
            have total : data + extentBlocks (ex :: before) =
                data + span ex.eeStart num + extentBlocks before + span (ex.eeStart + num) (ex.eeLen - num) := by
              rw [extentBlocks_cons,cut]
              abel
            rw [total]
            exact .single (.dropData freed)
          have rest : Moves .shrink ⟨dirtyNode bh sb₁,data + span ex.eeStart num + extentBlocks before,held⟩ _ := ih inner
          refine (given.trans (dirtyNode_moves node)).trans ?_
          have keeps : data + extentBlocks (if num = 0 then kept' else {ex with eeLen := num} :: kept') =
              data + span ex.eeStart num + extentBlocks kept' := by
            split
            · rename_i zero
              rw [zero,span_zero,add_zero]
            · rw [extentBlocks_cons,add_assoc]
          simp only
          rw [keeps]
          exact rest

theorem rmLeaf_moves
    (node : ∀ block, bh = some block → block ∈ held)
    (done : mlfsExtRmLeaf start stop bh leaf sb = some (leaf',key,sb')) :
    Moves .shrink ⟨sb,data + extentBlocks leaf,held⟩ ⟨sb',data + extentBlocks leaf',held⟩ := by
  unfold mlfsExtRmLeaf at done
  obtain ⟨⟨kept,first,sb₁⟩,inner,done⟩ := bind_eq_some_iff.mp done
  cases done
  have moves : Moves .shrink ⟨sb,data + extentBlocks leaf.reverse,held⟩ _ := rmExtents_moves node inner
  simpa only [extentBlocks_reverse] using moves

end Moves

def entryBlocks {d : Nat} (entries : List (ExtentIdx × Tree d)) : Multiset Nat :=
  extentBlocks (entryExtents entries)

section Entries
variable {d : Nat}

@[simp] theorem entryBlocks_nil : entryBlocks ([] : List (ExtentIdx × Tree d)) = 0 := rfl
@[simp] theorem entryBlocks_cons (e : ExtentIdx × Tree d) (rest : List (ExtentIdx × Tree d)) :
    entryBlocks (e :: rest) = extentBlocks (extents e.2) + entryBlocks rest := by simp [entryBlocks]
@[simp] theorem entryBlocks_append (left right : List (ExtentIdx × Tree d)) :
    entryBlocks (left ++ right) = entryBlocks left + entryBlocks right := by simp [entryBlocks]
@[simp] theorem entryBlocks_reverse (entries : List (ExtentIdx × Tree d)) :
    entryBlocks entries.reverse = entryBlocks entries := by
  induction entries with
  | nil => rfl
  | cons e rest ih =>
    simp only [List.reverse_cons,entryBlocks_append,entryBlocks_cons,entryBlocks_nil,ih]
    abel

theorem isEmptyNode_parts {node : Tree d} (empty : isEmptyNode node = true) : extents node = [] ∧ nodes node = 0 := by
  cases d with
  | zero => exact ⟨List.isEmpty_iff.mp empty,rfl⟩
  | succ d =>
    have none : entriesOf node = [] := List.isEmpty_iff.mp empty
    constructor
    · rw [extents,none]
      rfl
    · rw [nodes,none]
      rfl

end Entries

def Returns {d : Nat} (rm : Option Nat → Tree d → SuperBlock → Option (Tree d × Option Nat × SuperBlock)) : Prop :=
  ∀ (bh : Option Nat) (node node' : Tree d) (key : Option Nat) (sb sb' : SuperBlock) (data held : Multiset Nat),
    (∀ block, bh = some block → block ∈ held) → rm bh node sb = some (node',key,sb') →
    Moves .shrink ⟨sb,data + extentBlocks (extents node),held + nodes node⟩
      ⟨sb',data + extentBlocks (extents node'),held + nodes node'⟩

section Removal
variable {sb sb' : SuperBlock} {data held : Multiset Nat} {d : Nat}

variable {key bh : Option Nat} {start stop : Nat} {node : Tree top}

theorem settleChild_moves {key' : Option Nat} {first : Bool} {pIdx : ExtentIdx} {child : Tree d}
    {right after : List (ExtentIdx × Tree d)} (node : ∀ block, bh = some block → block ∈ held)
    (done : settleChild bh first pIdx child key right sb = some (after,key',sb')) :
    Moves .shrink ⟨sb,data,held + ({pIdx.eiLeaf} + nodes child + entryNodes right)⟩ ⟨sb',data,held + entryNodes after⟩ ∧
      entryBlocks after = extentBlocks (extents child) + entryBlocks right := by
  unfold settleChild at done
  simp only at done
  have marks : ∀ sb, Moves .shrink ⟨sb,data,held + ({pIdx.eiLeaf} + nodes child + entryNodes right)⟩
      ⟨dirtyNode bh sb,data,held + ({pIdx.eiLeaf} + nodes child + entryNodes right)⟩ :=
    fun sb => dirtyNode_moves fun block at_ => mem_add.mpr (Or.inl (node block at_))
  have keyed : Moves .shrink ⟨sb,data,held + ({pIdx.eiLeaf} + nodes child + entryNodes right)⟩
      ⟨if key.isSome then dirtyNode bh sb else sb,data,held + ({pIdx.eiLeaf} + nodes child + entryNodes right)⟩ := by
    split
    · exact marks sb
    · exact .refl
  split at done
  · rename_i empty
    obtain ⟨sb₁,freed,done⟩ := bind_eq_some_iff.mp done
    cases done
    obtain ⟨noExtents,noNodes⟩ := isEmptyNode_parts empty
    constructor
    · refine (keyed.trans (marks _)).trans ?_
      have total : held + ({pIdx.eiLeaf} + nodes child + entryNodes right) =
          held + entryNodes right + {pIdx.eiLeaf} := by
        rw [noNodes]
        abel
      rw [total]
      exact .single (.dropNode freed)
    · rw [noExtents,extentBlocks_nil,zero_add]
  · cases done
    exact ⟨keyed,by simp⟩

theorem rmEntries_moves {rm : Option Nat → Tree d → SuperBlock → Option (Tree d × Option Nat × SuperBlock)}
    (returns : Returns rm) {key' : Option Nat} {left right entries : List (ExtentIdx × Tree d)}
    (node : ∀ block, bh = some block → block ∈ held)
    (done : rmEntries rm bh left right key sb = some (entries,key',sb')) :
    Moves .shrink ⟨sb,data + (entryBlocks left + entryBlocks right),held + (entryNodes left + entryNodes right)⟩
      ⟨sb',data + entryBlocks entries,held + entryNodes entries⟩ := by
  induction left generalizing right key sb with
  | nil =>
    cases done
    rw [entryBlocks_nil,entryNodes_nil,zero_add,zero_add]
    exact .refl
  | cons entry left ih =>
    obtain ⟨pIdx,child⟩ := entry
    unfold rmEntries at done
    obtain ⟨⟨child',key₁,sb₁⟩,removed,done⟩ := bind_eq_some_iff.mp done
    obtain ⟨⟨after,key₂,sb₂⟩,settled,done⟩ := bind_eq_some_iff.mp done
    have inner := returns (some pIdx.eiLeaf) child child' key₁ sb sb₁
      (data + (entryBlocks left + entryBlocks right)) (held + (entryNodes left + {pIdx.eiLeaf} + entryNodes right))
      (fun block same => by cases same; simp) removed
    have stays : ∀ block, bh = some block → block ∈ held + entryNodes left :=
      fun block at_ => mem_add.mpr (Or.inl (node block at_))
    have settle : Moves .shrink ⟨sb₁,data + (entryBlocks left + entryBlocks right) + extentBlocks (extents child'),
          held + entryNodes left + ({pIdx.eiLeaf} + nodes child' + entryNodes right)⟩ _ ∧ _ :=
      settleChild_moves stays settled
    obtain ⟨settle,blocks⟩ := settle
    have start : Moves .shrink
        ⟨sb,data + (entryBlocks ((pIdx,child) :: left) + entryBlocks right),
          held + (entryNodes ((pIdx,child) :: left) + entryNodes right)⟩
        ⟨sb₂,data + (entryBlocks left + entryBlocks after),held + (entryNodes left + entryNodes after)⟩ := by
      have before : (⟨sb,data + (entryBlocks ((pIdx,child) :: left) + entryBlocks right),
            held + (entryNodes ((pIdx,child) :: left) + entryNodes right)⟩ : Account) =
          ⟨sb,data + (entryBlocks left + entryBlocks right) + extentBlocks (extents child),
            held + (entryNodes left + {pIdx.eiLeaf} + entryNodes right) + nodes child⟩ := by
        simp only [entryBlocks_cons,entryNodes_cons,Account.mk.injEq,true_and]
        constructor <;> abel
      have middle : held + (entryNodes left + {pIdx.eiLeaf} + entryNodes right) + nodes child' =
          held + entryNodes left + ({pIdx.eiLeaf} + nodes child' + entryNodes right) := by abel
      have finish : data + (entryBlocks left + entryBlocks right) + extentBlocks (extents child') =
          data + (entryBlocks left + entryBlocks after) := by
        rw [blocks]
        abel
      rw [before]
      refine inner.trans ?_
      rw [middle]
      have last : held + entryNodes left + entryNodes after = held + (entryNodes left + entryNodes after) := by abel
      rw [finish,last] at settle
      rwa [finish]
    simp only at done
    split at done
    · exact start.trans (ih done)
    · cases done
      simpa using start

theorem rmNode_returns (start stop : Nat) : Returns (rmNode start stop (d:=d)) := by
  induction d with
  | zero =>
    intro bh node node' key sb sb' data held member done
    exact rmLeaf_moves (fun block at_ => mem_add.mpr (Or.inl (member block at_))) done
  | succ d ih =>
    intro bh node node' key sb sb' data held member done
    have moves : Moves .shrink ⟨sb,data + (entryBlocks (entriesOf node).reverse + entryBlocks []),
        held + (entryNodes (entriesOf node).reverse + entryNodes [])⟩ _ := rmEntries_moves ih member done
    simp only [entryBlocks_reverse,entryNodes_reverse,entryBlocks_nil,entryNodes_nil,add_zero] at moves
    exact moves

def pathBlocks : {d top : Nat} → ExtPath d top → Multiset Nat
  | _,_,.root => 0
  | _,_,.under left _ right up => entryBlocks left + entryBlocks right + pathBlocks up

theorem extentBlocks_plug (path : ExtPath d top) (node : Tree d) :
    extentBlocks (extents (plug path node)) = extentBlocks (extents node) + pathBlocks path := by
  induction path with
  | root => simp [plug,pathBlocks]
  | under left pIdx right up ih =>
    rw [plug,ih,extents_index,←entryBlocks]
    simp only [entryBlocks_append,entryBlocks_cons,pathBlocks]
    abel

theorem rmUp_moves {path : ExtPath d top} {child : Tree d}
    (done : rmUp start stop path child key sb = some (node,sb')) :
    Moves .shrink ⟨sb,data + (extentBlocks (extents child) + pathBlocks path),held + (nodes child + pathNodes path)⟩
      ⟨sb',data + extentBlocks (extents node),held + nodes node⟩ := by
  induction path generalizing key sb with
  | root =>
    cases done
    rw [pathBlocks,pathNodes,add_zero,add_zero]
    exact .refl
  | under left pIdx right up ih =>
    unfold rmUp at done
    obtain ⟨⟨after,key₁,sb₁⟩,settled,done⟩ := bind_eq_some_iff.mp done
    have beside : ∀ block, pBh up = some block → block ∈ held + (entryNodes left + pathNodes up) :=
      fun block at_ => by simp [pBh_node at_]
    have settle : Moves .shrink ⟨sb,data + (extentBlocks (extents child) + pathBlocks (.under left pIdx right up)),
        held + (entryNodes left + pathNodes up) + ({pIdx.eiLeaf} + nodes child + entryNodes right)⟩ _ ∧ _ :=
      settleChild_moves beside settled
    obtain ⟨settle,blocks⟩ := settle
    have start_ : held + (nodes child + pathNodes (.under left pIdx right up)) =
        held + (entryNodes left + pathNodes up) + ({pIdx.eiLeaf} + nodes child + entryNodes right) := by
      simp only [pathNodes]
      abel
    have total : data + (extentBlocks (extents child) + pathBlocks (.under left pIdx right up)) =
        data + (entryBlocks left + entryBlocks after + pathBlocks up) := by
      rw [blocks]
      simp only [pathBlocks]
      abel
    rw [start_]
    refine settle.trans ?_
    rw [total]
    simp only at done
    split at done
    · have later := ih done
      simp only [extents_index,nodes_index,entryNodes_append] at later
      rw [←entryBlocks,entryBlocks_append] at later
      have same : held + (entryNodes left + pathNodes up) + entryNodes after =
          held + (entryNodes left + entryNodes after + pathNodes up) := by abel
      rwa [same]
    · obtain ⟨⟨entries,key₂,sb₂⟩,removed,done⟩ := bind_eq_some_iff.mp done
      have nodesHere : ∀ block, pBh up = some block → block ∈ held + pathNodes up :=
        fun block at_ => by simp [pBh_node at_]
      have inner : Moves .shrink ⟨sb₁,data + pathBlocks up + (entryBlocks left.reverse + entryBlocks after),
          held + pathNodes up + (entryNodes left.reverse + entryNodes after)⟩ _ :=
        rmEntries_moves (rmNode_returns start stop) nodesHere removed
      rw [entryBlocks_reverse,entryNodes_reverse] at inner
      have later := ih done
      simp only [extents_index,nodes_index] at later
      rw [←entryBlocks] at later
      have before : (⟨sb₁,data + (entryBlocks left + entryBlocks after + pathBlocks up),
            held + (entryNodes left + pathNodes up) + entryNodes after⟩ : Account) =
          ⟨sb₁,data + pathBlocks up + (entryBlocks left + entryBlocks after),
            held + pathNodes up + (entryNodes left + entryNodes after)⟩ := by
        simp only [Account.mk.injEq,true_and]
        constructor <;> abel
      have middle : (⟨sb₂,data + (entryBlocks entries + pathBlocks up),held + (entryNodes entries + pathNodes up)⟩ :
            Account) = ⟨sb₂,data + pathBlocks up + entryBlocks entries,held + pathNodes up + entryNodes entries⟩ := by
        simp only [Account.mk.injEq,true_and]
        constructor <;> abel
      rw [middle] at later
      rw [before]
      exact inner.trans later

theorem emptiedRoot_parts (root : ExtRoot) :
    extents (emptiedRoot root).node = extents root.node ∧ nodes (emptiedRoot root).node = nodes root.node := by
  by_cases empty : isEmptyNode root.node = true
  · obtain ⟨noExtents,noNodes⟩ := isEmptyNode_parts empty
    have emptied : emptiedRoot root = ⟨0,leafNode []⟩ := if_pos empty
    rw [emptied]
    exact ⟨noExtents.symm,noNodes.symm⟩
  · have kept : emptiedRoot root = root := if_neg empty
    rw [kept]
    exact ⟨rfl,rfl⟩

theorem removeFrom_moves (on : c.On root.node)
    (done : removeFrom root c start stop sb = some (root',sb')) :
    Moves .shrink ⟨sb,data + extentBlocks (extents root.node),held + nodes root.node⟩
      ⟨sb',data + extentBlocks (extents root'.node),held + nodes root'.node⟩ := by
  unfold removeFrom at done
  obtain ⟨⟨leaf,key,sb₁⟩,removed,done⟩ := bind_eq_some_iff.mp done
  obtain ⟨⟨node,sb₂⟩,upwards,done⟩ := bind_eq_some_iff.mp done
  cases done
  obtain ⟨sameExtents,sameNodes⟩ := emptiedRoot_parts ⟨root.ehDepth,node⟩
  have leafMoves : Moves .shrink ⟨sb,data + pathBlocks c.path + extentBlocks c.leaf,held + pathNodes c.path⟩ _ :=
    rmLeaf_moves (fun block at_ => by simp [pBh_node at_]) removed
  have upMoves : Moves .shrink ⟨sb₁,data + (extentBlocks (extents (leafNode leaf)) + pathBlocks c.path),
      held + (nodes (leafNode leaf) + pathNodes c.path)⟩ _ := rmUp_moves upwards
  rw [sameExtents,sameNodes,←on,extentBlocks_plug,nodes_plug]
  simp only [extents_leaf,nodes_leaf,zero_add] at upMoves ⊢
  rw [add_comm (extentBlocks c.leaf),←add_assoc]
  rw [add_comm (extentBlocks leaf),←add_assoc] at upMoves
  exact leafMoves.trans upMoves

theorem forceSplit_moves {split place : Nat} {ex : Extent}
    (on : c.On root.node) (at_ : c.leaf[i]? = some ex) (low : ex.eeBlock ≤ split)
    (high : split ≤ ex.eeBlock + ex.eeLen)
    (done : mlfsForceSplitExtentAt root c i ex split sb = some (root',place,sb')) :
    Moves .grow ⟨sb,data,held + nodes root.node⟩ ⟨sb',data,held + nodes root'.node⟩ ∧
      extentBlocks (extents root'.node) = extentBlocks (extents root.node) := by
  unfold mlfsForceSplitExtentAt at done
  simp only at done
  obtain ⟨⟨root₁,sb₁⟩,inserted,done⟩ := bind_eq_some_iff.mp done
  cases done
  obtain ⟨inside,rfl⟩ := List.getElem?_eq_some_iff.mp at_
  generalize short : c.leaf.set i {c.leaf[i] with eeLen := split - c.leaf[i].eeBlock} = leaf at inserted
  have nodesSame : nodes (plug c.path (leafNode leaf)) = nodes root.node := by
    rw [←on,nodes_plug,nodes_plug,nodes_leaf,nodes_leaf]
  have dirtied : Moves .grow ⟨sb,data,held + nodes root.node⟩ ⟨mlfsExtDirty c.path sb,data,held + nodes root.node⟩ := by
    refine extDirty_moves ?_
    rw [←on,nodes_plug,nodes_leaf,zero_add]
    exact le_add_left _ _
  have shortened : Cursor.On (⟨c.path,leaf,some i⟩ : Cursor root.ehDepth) (plug c.path (leafNode leaf)) := rfl
  have insertion : Moves .grow ⟨mlfsExtDirty c.path sb,data,held + nodes (plug c.path (leafNode leaf))⟩ _ ∧ _ :=
    insertExtent_blocks shortened inserted
  obtain ⟨moves,sum⟩ := insertion
  rw [nodesSame] at moves
  refine ⟨dirtied.trans moves,?_⟩
  rw [sum,←on,extentBlocks_plug,extentBlocks_plug]
  have cut : extentBlocks c.leaf = extentBlocks leaf +
      span (split - c.leaf[i].eeBlock + c.leaf[i].eeStart) (c.leaf[i].eeLen - (split - c.leaf[i].eeBlock)) := by
    have whole : c.leaf = c.leaf.take i ++ c.leaf[i] :: c.leaf.drop (i + 1) := by
      rw [←List.drop_eq_getElem_cons inside,List.take_append_drop]
    rw [←short,List.set_eq_take_append_cons_drop,if_pos inside]
    conv_lhs => rw [whole]
    simp only [extentBlocks_append,extentBlocks_cons]
    rw [span_cut (m:=split - c.leaf[i].eeBlock) (by omega),add_comm (split - c.leaf[i].eeBlock)]
    abel
  simp only [extents_leaf]
  rw [cut]
  abel

theorem extTruncate_moves
    (done : mlfsExtTruncate root start stop sb = some (root',sb')) :
    ∃ middle, Moves .grow ⟨sb,data + extentBlocks (extents root.node),held + nodes root.node⟩ middle ∧
      Moves .shrink middle ⟨sb',data + extentBlocks (extents root'.node),held + nodes root'.node⟩ := by
  unfold mlfsExtTruncate mlfsExtRemoveSpace at done
  split at done
  · cases done
  · obtain ⟨c,found,done⟩ := bind_eq_some_iff.mp done
    have on := findExtent_on found
    split at done
    · split at done
      · cases done
        exact ⟨_,.refl,.refl⟩
      · cases done
    · rename_i i _
      obtain ⟨ex,at_,done⟩ := bind_eq_some_iff.mp done
      split at done
      · cases done
        exact ⟨_,.refl,.refl⟩
      · split at done
        · rename_i inner
          obtain ⟨⟨root₁,place,sb₁⟩,split,done⟩ := bind_eq_some_iff.mp done
          obtain ⟨c₁,found₁,done⟩ := bind_eq_some_iff.mp done
          have cutting : Moves .grow ⟨sb,data + extentBlocks (extents root.node),held + nodes root.node⟩ _ ∧ _ :=
            forceSplit_moves on at_ (by omega) (by omega) split
          obtain ⟨moves,same⟩ := cutting
          have removal : Moves .shrink ⟨sb₁,data + extentBlocks (extents root₁.node),held + nodes root₁.node⟩ _ :=
            removeFrom_moves (findExtent_on found₁) done
          rw [same] at removal
          exact ⟨_,moves,removal⟩
        · exact ⟨_,.refl,removeFrom_moves on done⟩

end Removal

theorem mem_extentBlocks {es : List Extent} {e : Extent} (member : e ∈ es) {b : Nat}
    (inside : e.eeStart ≤ b ∧ b < e.eeStart + e.eeLen) : b ∈ extentBlocks es := by
  obtain ⟨front,back,rfl⟩ := List.append_of_mem member
  simp only [extentBlocks_append,extentBlocks_cons,mem_add,mem_span]
  exact Or.inr (Or.inl inside)

section GetBlocks
variable {root root' : ExtRoot} {sb sb' : SuperBlock} {mLblk mLen : Nat} {result : MapResult} {create : Bool}

def Cursor.hit {d : Nat} (c : Cursor d) (mLblk : Nat) : Option Extent :=
  (c.pExt.bind fun i => c.leaf[i]?).filter fun ex => decide (ex.eeBlock ≤ mLblk ∧ mLblk < ex.eeBlock + ex.eeLen)

theorem getBlocks_cases (done : mlfsExtGetBlocks root sb mLblk mLen create = some (result,root',sb')) :
    ∃ c, mlfsFindExtent root mLblk = some c ∧
      ((∃ ex, c.hit mLblk = some ex ∧ root' = root ∧ sb' = sb ∧
        result.ret = min (ex.eeLen + ex.eeBlock - mLblk) mLen ∧ result.mPblk = mLblk - ex.eeBlock + ex.eeStart) ∨
      (c.hit mLblk = none ∧ create = true ∧ ∃ sb₁, mlfsExtAllocBlocks sb .data result.ret = some (result.mPblk,sb₁) ∧
        mlfsExtInsertExtent root c ⟨mLblk,result.ret,result.mPblk⟩ false sb₁ = some (root',sb') ∧ result.ret ≤ mLen) ∨
      (c.hit mLblk = none ∧ create = false ∧ result.ret = 0 ∧ root' = root ∧ sb' = sb)) := by
  unfold mlfsExtGetBlocks at done
  obtain ⟨c,found,done⟩ := bind_eq_some_iff.mp done
  refine ⟨c,found,?_⟩
  simp only at done
  split at done
  · cases done
  · split at done
    · rename_i ex hit
      cases done
      exact Or.inl ⟨ex,hit,rfl,rfl,rfl,rfl⟩
    · rename_i miss
      cases create with
      | true =>
        simp only [if_true] at done
        split at done
        · cases done
        · obtain ⟨⟨newblock,sb₁⟩,alloc,done⟩ := bind_eq_some_iff.mp done
          obtain ⟨⟨root₁,sb₂⟩,inserted,done⟩ := bind_eq_some_iff.mp done
          cases done
          exact Or.inr (Or.inl ⟨miss,rfl,sb₁,alloc,inserted,min_le_right ..⟩)
      | false =>
        simp only [Bool.false_eq_true,if_false] at done
        obtain ⟨hole,_,done⟩ := bind_eq_some_iff.mp done
        cases done
        exact Or.inr (Or.inr ⟨miss,rfl,rfl,rfl,rfl⟩)

theorem hit_owned {c : Cursor root.ehDepth} {ex : Extent} (found : mlfsFindExtent root mLblk = some c)
    (hit : c.hit mLblk = some ex) (bound : i < ex.eeLen + ex.eeBlock - mLblk) :
    mLblk - ex.eeBlock + ex.eeStart + i ∈ extentBlocks (extents root.node) := by
  obtain ⟨at_,inside⟩ := filter_eq_some_iff.mp hit
  obtain ⟨place,_,at_⟩ := bind_eq_some_iff.mp at_
  have listed : ex ∈ extents root.node := by
    rw [←findExtent_on found,extents_plug]
    simp [List.mem_of_getElem? at_]
  have range := of_decide_eq_true inside
  exact mem_extentBlocks listed (by omega)

theorem getBlocks_parts (done : mlfsExtGetBlocks root sb mLblk mLen true = some (result,root',sb')) :
    (root' = root ∧ sb' = sb) ∨
    ∃ sb₁, result.ret ≤ mLen ∧ mlfsExtAllocBlocks sb .data result.ret = some (result.mPblk,sb₁) ∧
      (∀ data held : Multiset Nat,
        Moves .grow ⟨sb₁,data,held + nodes root.node⟩ ⟨sb',data,held + nodes root'.node⟩) ∧
      extentBlocks (extents root'.node) =
        extentBlocks (extents root.node) + span result.mPblk result.ret := by
  obtain ⟨c,found,⟨_,_,rfl,rfl,_⟩ | ⟨_,_,sb₁,alloc,inserted,most⟩ | ⟨_,none,_⟩⟩ := getBlocks_cases done
  · exact Or.inl ⟨rfl,rfl⟩
  · have on := findExtent_on found
    refine Or.inr ⟨sb₁,most,alloc,fun data held => (insertExtent_blocks on inserted).1,?_⟩
    have both : Moves .grow ⟨sb₁,0,0 + nodes root.node⟩ _ ∧ _ := insertExtent_blocks on inserted
    exact both.2
  · cases none

theorem getBlocks_owned (done : mlfsExtGetBlocks root sb mLblk mLen create = some (result,root',sb')) :
    ∀ i < result.ret, result.mPblk + i ∈ extentBlocks (extents root'.node) := by
  intro i bound
  obtain ⟨c,found,⟨ex,hit,rfl,_,count,start⟩ | ⟨_,_,sb₁,_,inserted,_⟩ | ⟨_,_,none,_⟩⟩ := getBlocks_cases done
  · rw [start]
    exact hit_owned found hit (by omega)
  · have both : Moves .grow ⟨sb₁,0,0 + nodes root.node⟩ _ ∧ _ := insertExtent_blocks (findExtent_on found) inserted
    rw [both.2,mem_add,mem_span]
    exact Or.inr (by simp only; omega)
  · omega

theorem getBlocks_found {sb₀ sb₁ : SuperBlock} {root₁ : ExtRoot} {len : Nat} {looked : MapResult}
    (lookup : mlfsExtGetBlocks root sb₀ mLblk len false = some (looked,root₁,sb₁)) (hit : looked.ret ≠ 0)
    (done : mlfsExtGetBlocks root sb mLblk mLen create = some (result,root',sb')) : root' = root ∧ sb' = sb := by
  obtain ⟨c,found,⟨ex,here,_⟩ | ⟨_,none,_⟩ | ⟨_,_,none,_⟩⟩ := getBlocks_cases lookup
  · obtain ⟨c',found',⟨_,_,rfl,rfl,_⟩ | ⟨miss,_⟩ | ⟨miss,_⟩⟩ := getBlocks_cases done
    · exact ⟨rfl,rfl⟩
    · cases found.symm.trans found'
      rw [here] at miss
      cases miss
    · cases found.symm.trans found'
      rw [here] at miss
      cases miss
  · cases none
  · exact absurd none hit

end GetBlocks

end Assise.Extents
