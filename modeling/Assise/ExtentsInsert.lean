import Assise.ExtentsSearch
import Assise.Supply

-- Insertion into a file's tree: it returns as long as there is space, keeps the tree in shape, and
-- the new extent is where its first block belongs.
namespace Assise.Extents

open Balloc Lib.Spans
open List hiding span

def Apart (a b : Extent) : Prop := Before a b ∨ Before b a

variable {newext : Extent} {block top : Nat}

theorem InOrder.insert {left right : List Extent} (order : InOrder (left ++ right))
    (valid : newext.Valid) (apart : ∀ e ∈ left ++ right, Apart e newext)
    (low : ∀ e ∈ left, e.eeBlock ≤ newext.eeBlock) (high : ∀ e ∈ right, newext.eeBlock ≤ e.eeBlock) :
    InOrder (left ++ newext :: right) := by
  obtain ⟨first,second,between⟩ := order.parts
  have early : ∀ e ∈ left, Before e newext := by
    intro e member
    refine (apart e (mem_append_left right member)).resolve_right fun behind => ?_
    have start := low e member
    have positive := valid.positive
    unfold Before at behind
    omega
  have late : ∀ e ∈ right, Before newext e := by
    intro e member
    refine (apart e (mem_append_right left member)).resolve_left fun ahead => ?_
    have start := high e member
    have positive := (second.valid e member).positive
    unfold Before at ahead
    omega
  have tail : InOrder (newext :: right) :=
    ⟨forall_mem_cons.mpr ⟨valid,second.valid⟩,pairwise_cons.mpr ⟨late,second.sorted⟩⟩
  refine first.append tail fun e member f other => ?_
  rcases mem_cons.mp other with rfl | other
  · exact early e member
  · exact between e member f other

variable {x y : List Extent} {d : Nat}

theorem MergeStep.inOrder (step : MergeStep x y) (order : InOrder x) : InOrder y := by
  cases step with
  | join front a b back can =>
    obtain ⟨adjacent,short,_⟩ := canMerge_parts can
    have split : InOrder ((front ++ [a,b]) ++ back) := by simpa using order
    obtain ⟨some,behind,between⟩ := split.parts
    obtain ⟨ahead,two,toTwo⟩ := some.parts
    have validA := two.valid a (by simp)
    have validB := two.valid b (by simp)
    have joined : InOrder [({a with eeLen := a.eeLen + b.eeLen} : Extent)] := by
      refine ⟨fun e member => ?_,pairwise_singleton ..⟩
      cases mem_singleton.mp member
      refine ⟨Nat.add_pos_left validA.positive _,short,?_⟩
      have inside := validB.inside
      simp only
      omega
    have start : InOrder (front ++ [({a with eeLen := a.eeLen + b.eeLen} : Extent)]) :=
      ahead.append joined fun e member f other => by
        cases mem_singleton.mp other
        exact toTwo e member a (by simp)
    have whole := start.append behind fun e member f other => by
      rcases mem_append.mp member with early | last
      · exact between e (mem_append_left _ early) f other
      · cases mem_singleton.mp last
        have next : Before b f := between b (by simp) f other
        unfold Before at next ⊢
        simp only
        omega
    simpa using whole

theorem MergeStep.head (step : MergeStep x y) :
    y.head?.map (·.eeBlock) = x.head?.map (·.eeBlock) := by
  cases step with
  | join front a b back can => cases front <;> rfl

theorem MergeStep.length (step : MergeStep x y) : y.length + 1 = x.length := by
  cases step with
  | join front a b back can =>
    simp only [length_append,length_cons]
    omega

theorem Merges.inOrder (merges : Merges x y) (order : InOrder x) : InOrder y := by
  induction merges with
  | refl => exact order
  | tail _ step ih => exact step.inOrder ih

theorem Merges.head (merges : Merges x y) :
    y.head?.map (·.eeBlock) = x.head?.map (·.eeBlock) := by
  induction merges with
  | refl => rfl
  | tail _ step ih => rw [step.head,ih]

theorem Merges.length (merges : Merges x y) : y.length ≤ x.length := by
  induction merges with
  | refl => exact le_refl _
  | tail _ step ih => exact (Nat.le_of_succ_le (le_of_eq step.length)).trans ih

@[simp] theorem correctKeys_max (border : Nat) {top : Nat} (path : ExtPath d top) (sb : SuperBlock) :
    ehMax (correctKeys border path sb).1 = ehMax path := by
  rcases path with _ | ⟨_ | ⟨first,left⟩,pIdx,right,up⟩ <;> rfl

theorem correctKeys_leaves (border : Nat) (path : ExtPath d top) (sb : SuperBlock) :
    leavesBefore (correctKeys border path sb).1 = leavesBefore path ∧
      leavesAfter (correctKeys border path sb).1 = leavesAfter path := by
  induction path generalizing sb with
  | root => exact ⟨rfl,rfl⟩
  | under left pIdx right up ih =>
    cases left with
    | nil =>
      obtain ⟨before,after⟩ := ih (mlfsExtDirty up sb)
      exact ⟨by simp [correctKeys,leavesBefore,before],by simp [correctKeys,leavesAfter,after]⟩
    | cons first left => exact ⟨rfl,rfl⟩

theorem correctKeys_ok (border : Nat) {path : ExtPath d top} {key : Nat} (ok : PathOk path key)
    (sb : SuperBlock) : PathOk (correctKeys border path sb).1 border := by
  induction path generalizing key sb with
  | root => trivial
  | under left pIdx right up ih =>
    obtain ⟨_,before,after,count,above⟩ := ok
    cases left with
    | nil => exact ⟨rfl,before,after,by simpa using count,ih above _⟩
    | cons first left => exact ⟨rfl,before,after,count,above⟩

theorem treeOk_plug {path : ExtPath 0 top} {leaf : List Extent} {key : Nat} (ok : PathOk path key)
    (before : Exact (leavesBefore path)) (after : Exact (leavesAfter path)) (fits : leaf.length ≤ ehMax path)
    (start : leaf.head?.map (·.eeBlock) = some key)
    (order : InOrder (extentsBefore path ++ leaf ++ extentsAfter path)) :
    TreeOk ⟨top,plug path (leafNode leaf)⟩ := by
  refine ⟨Or.inr ⟨rootKey path key,plug_ok ok fits,?_⟩,by rw [extents_plug]; exact order⟩
  rw [leaves_plug ok]
  refine Exact.append.mpr ⟨Exact.append.mpr ⟨before,?_⟩,after⟩
  intro l member
  cases mem_singleton.mp member
  exact start

section Leaf
variable {top : Nat} {path : ExtPath 0 top} {leaf : List Extent} {key : Nat}

variable {pExt k : Nat} {held : Multiset Nat} {sb : SuperBlock}

theorem correctAndDirty_ok (sb : SuperBlock) (ok : PathOk path key)
    (before : Exact (leavesBefore path)) (after : Exact (leavesAfter path)) (nonempty : leaf ≠ [])
    (fits : leaf.length ≤ ehMax path) (start : pExt = 0 ∨ leaf.head?.map (·.eeBlock) = some key)
    (order : InOrder (extentsBefore path ++ leaf ++ extentsAfter path)) :
    ∃ root sb', correctAndDirty path leaf pExt sb = some (root,sb') ∧ TreeOk root ∧
      extents root.node = extentsBefore path ++ leaf ++ extentsAfter path := by
  obtain ⟨first,rest,shape⟩ := exists_cons_of_ne_nil nonempty
  cases pExt with
  | zero =>
    obtain ⟨leftSame,rightSame⟩ := correctKeys_leaves first.eeBlock path sb
    obtain ⟨_,beforeSame,afterSame,_⟩ := correctKeys_frame first.eeBlock path sb
    have done : correctAndDirty path leaf 0 sb =
        some (⟨top,plug (correctKeys first.eeBlock path sb).1 (leafNode leaf)⟩,
          mlfsExtDirty (correctKeys first.eeBlock path sb).1 (correctKeys first.eeBlock path sb).2) := by
      rw [correctAndDirty,shape]
      rfl
    refine ⟨_,_,done,?_,?_⟩
    · refine treeOk_plug (correctKeys_ok first.eeBlock ok sb) ?_ ?_ ?_ (by rw [shape]; rfl) ?_
      · rw [leftSame]
        exact before
      · rw [rightSame]
        exact after
      · rw [correctKeys_max]
        exact fits
      · rw [beforeSame,afterSame]
        exact order
    · rw [extents_plug,beforeSame,afterSame]
      rfl
  | succ i =>
    refine ⟨⟨top,plug path (leafNode leaf)⟩,_,rfl,?_,extents_plug path _⟩
    exact treeOk_plug ok before after fits (start.resolve_left (by simp)) order

theorem leaf_root_ok (fits : leaf.length ≤ mlfsExtSpaceRoot) (nonempty : leaf ≠ []) (order : InOrder leaf) :
    TreeOk ⟨0,leafNode leaf⟩ := by
  obtain ⟨first,rest,rfl⟩ := exists_cons_of_ne_nil nonempty
  refine ⟨Or.inr ⟨first.eeBlock,fits,?_⟩,order⟩
  intro l member
  cases mem_singleton.mp member
  rfl

theorem mergeAndCorrect_ok (near : Nat) (preIo : Bool)
    (working : Working sb (held + pathNodes path)) (ok : PathOk path key)
    (before : Exact (leavesBefore path)) (after : Exact (leavesAfter path)) (nonempty : leaf ≠ [])
    (fits : leaf.length ≤ ehMax path) (start : pExt = 0 ∨ leaf.head?.map (·.eeBlock) = some key)
    (order : InOrder (extentsBefore path ++ leaf ++ extentsAfter path)) :
    ∃ root sb', mergeAndCorrect path leaf near pExt preIo sb = some (root,sb') ∧ TreeOk root ∧
      ∃ leaf', Merges leaf leaf' ∧ (preIo = true → leaf' = leaf) ∧
        extents root.node = extentsBefore path ++ leaf' ++ extentsAfter path := by
  unfold mergeAndCorrect
  by_cases pre : preIo = true
  · rw [if_pos pre]
    obtain ⟨root,sb',done,treeOk,whole⟩ := correctAndDirty_ok sb ok before after nonempty fits start order
    exact ⟨root,sb',done,treeOk,leaf,.refl,fun _ => rfl,whole⟩
  · rw [if_neg pre]
    have merged := tryToMerge_merges leaf near
    generalize mlfsExtTryToMerge leaf near = leaf' at merged
    have nonempty' : leaf' ≠ [] := by
      intro none
      have same := merged.head
      rw [none] at same
      cases leaf with
      | nil => exact nonempty rfl
      | cons first rest => cases same
    have order' := (merged.within (extentsBefore path) (extentsAfter path)).inOrder order
    have corrected := correctAndDirty_ok sb ok before after nonempty' (merged.length.trans fits)
      (merged.head ▸ start) order'
    obtain ⟨root,sb',done,treeOk,whole⟩ := corrected
    simp only
    cases only : onlyLeaf path with
    | none => exact ⟨root,sb',done,treeOk,leaf',merged,fun yes => absurd yes pre,whole⟩
    | some blk =>
      simp only
      split
      · rename_i few
        obtain ⟨blocks,noneBefore,noneAfter⟩ := onlyLeaf_parts only
        rw [blocks,←span_one] at working
        obtain ⟨sb₁,freed,_⟩ := working.give_back (by simp)
        rw [noneBefore,noneAfter,nil_append,append_nil] at order'
        refine ⟨⟨0,leafNode leaf'⟩,sb₁,by rw [freed]; rfl,leaf_root_ok few nonempty' order',leaf',merged,
          fun yes => absurd yes pre,?_⟩
        rw [noneBefore,noneAfter]
        simp
      · exact ⟨root,sb',done,treeOk,leaf',merged,fun yes => absurd yes pre,whole⟩

structure Place (path : ExtPath 0 top) (leaf : List Extent) (key : Nat) (newext : Extent) (k : Nat) : Prop where
  ok : PathOk path key
  before : Exact (leavesBefore path)
  after : Exact (leavesAfter path)
  order : InOrder (extentsBefore path ++ leaf ++ extentsAfter path)
  low : ∀ e ∈ extentsBefore path ++ leaf.take k,e.eeBlock ≤ newext.eeBlock
  high : ∀ e ∈ leaf.drop k ++ extentsAfter path,newext.eeBlock ≤ e.eeBlock
  start : k = 0 ∨ leaf.head?.map (·.eeBlock) = some key

def Inserted (es : List Extent) (newext : Extent) (preIo : Bool) (es' : List Extent) : Prop :=
  ∃ left right, es = left ++ right ∧ Merges (left ++ newext :: right) es' ∧
    (preIo = true → es' = left ++ newext :: right)

theorem Place.mergeAndCorrect {near : Nat} {preIo : Bool} {leaf' : List Extent} (place : Place path leaf key newext k)
    (working : Working sb (held + pathNodes path)) (valid : newext.Valid)
    (apart : ∀ e ∈ extentsBefore path ++ leaf ++ extentsAfter path, Apart e newext)
    (merged : Merges (leaf.take k ++ newext :: leaf.drop k) leaf')
    (unmerged : preIo = true → leaf' = leaf.take k ++ newext :: leaf.drop k)
    (fits : leaf'.length ≤ ehMax path) (first : pExt = 0 ∨ 0 < k) :
    ∃ root sb', mergeAndCorrect path leaf' near pExt preIo sb = some (root,sb') ∧ TreeOk root ∧
      Inserted (extentsBefore path ++ leaf ++ extentsAfter path) newext preIo (extents root.node) := by
  have cut : extentsBefore path ++ leaf ++ extentsAfter path =
      (extentsBefore path ++ leaf.take k) ++ (leaf.drop k ++ extentsAfter path) := by
    rw [append_assoc _ (leaf.take k),←append_assoc (leaf.take k),take_append_drop,append_assoc]
  have order := place.order
  rw [cut] at order apart
  have inserted := order.insert valid apart place.low place.high
  have widened := merged.within (extentsBefore path) (extentsAfter path)
  have shape : extentsBefore path ++ (leaf.take k ++ newext :: leaf.drop k) ++ extentsAfter path =
      (extentsBefore path ++ leaf.take k) ++ newext :: (leaf.drop k ++ extentsAfter path) := by simp
  rw [shape] at widened
  have nonempty : leaf' ≠ [] := by
    rintro rfl
    have head := merged.head
    cases take : leaf.take k <;> simp [take] at head
  have start : pExt = 0 ∨ leaf'.head?.map (·.eeBlock) = some key := by
    refine first.imp_right fun positive => ?_
    have known := place.start.resolve_left (Nat.ne_of_gt positive)
    rw [merged.head]
    obtain ⟨i,rfl⟩ : ∃ i, k = i + 1 := ⟨k - 1,by omega⟩
    cases leaf with
    | nil => cases known
    | cons e rest => exact known
  obtain ⟨root,sb',done,ok,leaf'',further,same,whole⟩ :=
    mergeAndCorrect_ok near preIo working place.ok place.before place.after nonempty fits start
      (widened.inOrder inserted)
  refine ⟨root,sb',done,ok,_,_,cut,?_,?_⟩
  · rw [whole]
    exact widened.trans (further.within _ _)
  · intro pre
    rw [whole,same pre,unmerged pre,shape]

theorem insertAt_ok {c : Cursor top} {k : Nat} {preIo : Bool} (place : Place c.path c.leaf key newext k)
    (position : insertPosition c newext = some k) (space : c.leaf.length < ehMax c.path)
    (working : Working sb (held + pathNodes c.path)) (valid : newext.Valid)
    (apart : ∀ e ∈ extentsBefore c.path ++ c.leaf ++ extentsAfter c.path, Apart e newext) :
    ∃ root sb', insertAt c newext preIo sb = some (root,sb') ∧ TreeOk root ∧
      Inserted (extentsBefore c.path ++ c.leaf ++ extentsAfter c.path) newext preIo (extents root.node) := by
  rw [insertAt,position]
  refine place.mergeAndCorrect working valid apart .refl (fun _ => rfl) ?_ (Nat.eq_zero_or_pos k)
  simp only [length_append,length_cons,length_take,length_drop]
  omega

end Leaf

theorem Apart.starts_differ {a b : Extent} (apart : Apart a b) (left : a.Valid) (right : b.Valid) :
    a.eeBlock ≠ b.eeBlock := by
  have positive := left.positive
  have positive' := right.positive
  rcases apart with before | behind
  · unfold Before at before
    omega
  · unfold Before at behind
    omega

section Found
variable {root : ExtRoot} {c : Cursor root.ehDepth} {key : Nat} {left right : List Extent} {ex newext : Extent}

theorem Cursor.On.extents {c : Cursor root.ehDepth} (on : c.On root.node) :
    extents root.node = extentsBefore c.path ++ c.leaf ++ extentsAfter c.path := by
  rw [←on,extents_plug]
  rfl

section
variable (at_ : Located root block c key left ex right)
include at_

theorem Located.listing :
    extents root.node = (extentsBefore c.path ++ left) ++ ex :: (right ++ extentsAfter c.path) := by
  rw [at_.on.extents,at_.leaf]
  simp

theorem Located.here : c.leaf[left.length]? = some ex := by
  rw [at_.leaf]
  simp

theorem Located.member : ex ∈ extents root.node := by
  rw [at_.listing]
  simp

end

theorem Located.position (at_ : Located root newext.eeBlock c key left ex right) (order : InOrder (extents root.node))
    (valid : newext.Valid) (apart : ∀ e ∈ extents root.node, Apart e newext) :
    ∃ k, Place c.path c.leaf key newext k ∧ insertPosition c newext = some k ∧
      (k = left.length + 1 ∧ ex.eeBlock < newext.eeBlock ∨
        k = 0 ∧ left = [] ∧ newext.eeBlock < ex.eeBlock) := by
  rw [at_.on.extents] at order apart
  have member : ex ∈ extentsBefore c.path ++ c.leaf ++ extentsAfter c.path := by simp [at_.leaf]
  have differ := (apart ex member).starts_differ (order.valid ex member) valid
  have here := at_.here
  have shape := at_.on.extents.symm.trans at_.listing
  have position : insertPosition c newext =
      if ex.eeBlock < newext.eeBlock then some (left.length + 1) else some left.length := by
    rw [insertPosition,at_.place]
    simp [here,differ.symm]
  have sorted := order
  rw [shape] at sorted
  by_cases behind : ex.eeBlock < newext.eeBlock
  · refine ⟨left.length + 1,⟨at_.path,at_.before,at_.after,order,?_,?_,Or.inr at_.start⟩,?_,Or.inl ⟨rfl,behind⟩⟩
    · intro e inside
      rw [at_.leaf,take_append,take_of_length_le (by omega)] at inside
      have cases : e ∈ extentsBefore c.path ++ left ∨ e = ex := by
        simp only [mem_append] at inside ⊢
        rcases inside with early | early | last
        · exact Or.inl (Or.inl early)
        · exact Or.inl (Or.inr early)
        · exact Or.inr (by simpa using last)
      rcases cases with early | rfl
      · have ahead : Before e ex := sorted.parts.2.2 e early ex (by simp)
        unfold Before at ahead
        omega
      · exact le_of_lt behind
    · intro e inside
      rw [at_.leaf,drop_append,drop_of_length_le (by omega)] at inside
      exact le_of_lt (at_.high e (by simpa using inside))
    · rw [position,if_pos behind]
  · have ahead : newext.eeBlock < ex.eeBlock := by omega
    have first := at_.low.resolve_right (by omega)
    obtain ⟨noneBefore,rfl⟩ := append_eq_nil_iff.mp first
    refine ⟨0,⟨at_.path,at_.before,at_.after,order,?_,?_,Or.inl rfl⟩,?_,Or.inr ⟨rfl,rfl,ahead⟩⟩
    · intro e inside
      simp [noneBefore] at inside
    · intro e inside
      rw [at_.leaf] at inside
      have listed : e ∈ ex :: (right ++ extentsAfter c.path) := by simpa using inside
      rcases mem_cons.mp listed with rfl | later
      · exact le_of_lt ahead
      · exact le_of_lt (at_.high e later)
    · rw [position,if_neg behind]
      rfl

variable {k : Nat}

theorem Located.extend {near : Nat} {leaf' : List Extent} (at_ : Located root newext.eeBlock c key left ex right)
    (valid : newext.Valid) (position : k = left.length + 1 ∧ ex.eeBlock < newext.eeBlock ∨
      k = 0 ∧ left = [] ∧ newext.eeBlock < ex.eeBlock) (validEx : ex.Valid)
    (placed : extendExtent c.leaf left.length newext = some (leaf',near)) :
    MergeStep (c.leaf.take k ++ newext :: c.leaf.drop k) leaf' := by
  obtain ⟨k',_,step,next⟩ := extendExtent_merges placed
  have here := at_.here
  have close : left.length = 0 ∨ ex.eeBlock ≤ newext.eeBlock := by
    rcases position with ⟨_,behind⟩ | ⟨_,rfl,_⟩
    · exact Or.inr (le_of_lt behind)
    · exact Or.inl rfl
  have positive := valid.positive
  have positive' := validEx.positive
  have same : k' = k := by
    rcases next ex here close with ⟨rfl,ahead⟩ | ⟨rfl,behind⟩
    · rcases position with ⟨rfl,_⟩ | ⟨_,_,other⟩
      · rfl
      · omega
    · rcases position with ⟨_,other⟩ | ⟨rfl,rfl,_⟩
      · omega
      · rfl
  exact same ▸ step

end Found

end Assise.Extents
