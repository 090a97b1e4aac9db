import Assise.ExtentsGrow

-- Punching a hole: what a removal leaves of every extent, and that the tree stays in shape.
namespace Assise.Extents

open Balloc Lib.Spans Option
open List hiding span

def trim (start stop : Nat) (e : Extent) : Option Extent :=
  if e.eeBlock + e.eeLen ≤ start ∨ stop < e.eeBlock then some e
  else if e.eeBlock < start then some {e with eeLen := start - e.eeBlock}
  else none

def Clear (stop : Nat) (e : Extent) : Prop := stop < e.eeBlock ∨ e.eeBlock + e.eeLen ≤ stop + 1

section Trim
variable {start stop : Nat}

theorem trim_kept {e : Extent} (outside : e.eeBlock + e.eeLen ≤ start ∨ stop < e.eeBlock) :
    trim start stop e = some e := if_pos outside

variable {es : List Extent}

theorem filterMap_trim_kept (outside : ∀ e ∈ es, e.eeBlock + e.eeLen ≤ start ∨ stop < e.eeBlock) :
    es.filterMap (trim start stop) = es := by
  induction es with
  | nil => rfl
  | cons e rest ih =>
    rw [filterMap_cons,trim_kept (outside e (by simp))]
    exact congrArg (e :: ·) (ih fun e' member => outside e' (mem_cons_of_mem e member))

theorem trim_parts {e e' : Extent} (left : trim start stop e = some e') :
    e'.eeBlock = e.eeBlock ∧ e'.eeLen ≤ e.eeLen ∧ (0 < e.eeLen → 0 < e'.eeLen) := by
  unfold trim at left
  split at left
  · cases left
    exact ⟨rfl,le_refl _,id⟩
  · split at left
    · cases left
      exact ⟨rfl,by simp only; omega,fun _ => by simp only; omega⟩
    · cases left

theorem InOrder.trim (order : InOrder es) : InOrder (es.filterMap (trim start stop)) := by
  constructor
  · intro e' member
    obtain ⟨e,inside,left⟩ := mem_filterMap.mp member
    obtain ⟨block,len,positive⟩ := trim_parts left
    have valid := order.valid e inside
    have short := valid.short
    have bound := valid.inside
    exact ⟨positive valid.positive,by omega,by omega⟩
  · refine order.sorted.filterMap _ ?_
    intro a b before a' left b' left'
    obtain ⟨block,len,_⟩ := trim_parts left
    obtain ⟨block',_,_⟩ := trim_parts left'
    unfold Before at before ⊢
    omega

theorem kept_before {before : List Extent} (order : InOrder (before ++ es))
    (below : ∀ e ∈ es, e.eeBlock + e.eeLen ≤ stop + 1) (rest : es.filterMap (trim start stop) ≠ []) :
    ∀ e ∈ before, e.eeBlock + e.eeLen ≤ start := by
  obtain ⟨e',member⟩ := exists_mem_of_ne_nil _ rest
  obtain ⟨e,inside,left⟩ := mem_filterMap.mp member
  have low : e.eeBlock ≤ start := by
    have bound := below e inside
    have positive := (order.parts.2.1.valid e inside).positive
    unfold trim at left
    split at left
    · rename_i outside
      rcases outside with ends | starts
      · omega
      · omega
    · split at left
      · rename_i starts
        omega
      · cases left
  intro f early
  have ahead : Before f e := order.parts.2.2 f early e inside
  unfold Before at ahead
  omega

end Trim

theorem extent_cut (e : Extent) (num : Nat) (few : num ≤ e.eeLen) :
    span e.eeStart e.eeLen = span e.eeStart num + span (e.eeStart + num) (e.eeLen - num) := span_cut (m:=num) few

section Leaf
variable {stop : Nat}

variable {held : Multiset Nat} {sb : SuperBlock} {es : List Extent}

theorem rmExtents_ok (start : Nat) (bh : Option Nat)
    (order : InOrder es.reverse) (clear : ∀ e ∈ es, Clear stop e) (working : Working sb (held + extentBlocks es)) :
    ∃ kept first sb', rmExtents start stop bh es sb = some (kept,first,sb') ∧
      kept = es.filterMap (trim start stop) ∧ Working sb' (held + extentBlocks kept) ∧
      (first = false → ∀ e, es.getLast? = some e → trim start stop e = some e) := by
  induction es generalizing sb held with
  | nil => exact ⟨[],false,sb,rfl,rfl,working,by simp⟩
  | cons ex before ih =>
    rw [reverse_cons] at order
    obtain ⟨early,single,between⟩ := order.parts
    have positive := (single.valid ex (by simp)).positive
    have others := fun e member => clear e (mem_cons_of_mem ex member)
    have lastOf : ∀ e, (ex :: before).getLast? = some e → before = [] ∧ e = ex ∨ before.getLast? = some e := by
      intro e last
      cases before with
      | nil => exact Or.inl ⟨rfl,by simpa using last.symm⟩
      | cons first rest => exact Or.inr (by simpa [getLast?_cons_cons] using last)
    unfold rmExtents
    by_cases ends : ex.eeBlock + ex.eeLen ≤ start
    · have kept : ∀ e ∈ ex :: before, e.eeBlock + e.eeLen ≤ start ∨ stop < e.eeBlock := by
        intro e member
        rcases mem_cons.mp member with rfl | earlier
        · exact Or.inl ends
        · have ahead : Before e ex := between e (mem_reverse.mpr earlier) ex (by simp)
          unfold Before at ahead
          exact Or.inl (by omega)
      rw [if_pos ends]
      refine ⟨ex :: before,false,sb,rfl,(filterMap_trim_kept kept).symm,working,fun _ e last => ?_⟩
      exact trim_kept (kept e (mem_of_getLast? last))
    · rw [if_neg ends]
      by_cases starts : stop < ex.eeBlock
      · rw [if_pos starts]
        rw [extentBlocks_cons,←add_assoc] at working
        obtain ⟨kept,first,sb',done,shape,after,untouched⟩ := ih early others working
        refine ⟨ex :: kept,first,sb',by simp [done],?_,?_,?_⟩
        · rw [filterMap_cons,trim_kept (Or.inr starts),shape]
        · rw [extentBlocks_cons,←add_assoc]
          exact after
        · intro no e last
          rcases lastOf e last with ⟨rfl,rfl⟩ | last
          · exact trim_kept (Or.inr starts)
          · exact untouched no e last
      · have ending := (clear ex (by simp)).resolve_left starts
        rw [if_neg starts,if_neg (by omega)]
        have num : max ex.eeBlock start - ex.eeBlock = start - ex.eeBlock := by omega
        simp only [num]
        have parts : held + extentBlocks (ex :: before) =
            held + span ex.eeStart (start - ex.eeBlock) + extentBlocks before +
              span (ex.eeStart + (start - ex.eeBlock)) (ex.eeLen - (start - ex.eeBlock)) := by
          rw [extentBlocks_cons,extent_cut ex (start - ex.eeBlock) (by omega)]
          abel
        rw [parts] at working
        obtain ⟨sb₁,freed,working₁⟩ := working.give_back (by omega)
        have working₂ : Working (dirtyNode bh sb₁)
            (held + span ex.eeStart (start - ex.eeBlock) + extentBlocks before) := by
          cases bh with
          | none => exact working₁
          | some block => exact working₁.mark block
        obtain ⟨kept,first,sb',done,shape,after,untouched⟩ := ih early others working₂
        refine ⟨if start - ex.eeBlock = 0 then kept else {ex with eeLen := start - ex.eeBlock} :: kept,
          first || before.isEmpty,sb',by simp [freed,done],?_,?_,?_⟩
        · have cut : trim start stop ex =
              if ex.eeBlock < start then some {ex with eeLen := start - ex.eeBlock} else none :=
            if_neg (not_or.mpr ⟨ends,starts⟩)
          rw [filterMap_cons,cut,shape]
          by_cases whole : start - ex.eeBlock = 0
          · have low : ¬ ex.eeBlock < start := by omega
            simp only [if_pos whole,if_neg low]
          · have high : ex.eeBlock < start := by omega
            simp only [if_neg whole,if_pos high]
        · by_cases whole : start - ex.eeBlock = 0
          · rw [if_pos whole]
            simpa [whole] using after
          · rw [if_neg whole,extentBlocks_cons,←add_assoc]
            exact after
        · intro no e last
          obtain ⟨noFirst,more⟩ := Bool.or_eq_false_iff.mp no
          rcases lastOf e last with ⟨rfl,_⟩ | last
          · cases more
          · exact untouched noFirst e last

theorem rmLeaf_ok (start : Nat) (bh : Option Nat) {leaf : List Extent} {key : Nat}
    (order : InOrder leaf) (clear : ∀ e ∈ leaf, Clear stop e) (begins : leaf.head?.map (·.eeBlock) = some key)
    (working : Working sb (held + extentBlocks leaf)) :
    ∃ leaf' k sb', mlfsExtRmLeaf start stop bh leaf sb = some (leaf',k,sb') ∧
      leaf' = leaf.filterMap (trim start stop) ∧ Working sb' (held + extentBlocks leaf') ∧
      (leaf' ≠ [] → leaf'.head?.map (·.eeBlock) = some (k.getD key)) := by
  have backwards : Working sb (held + extentBlocks leaf.reverse) := by rwa [extentBlocks_reverse]
  obtain ⟨kept,first,sb',done,shape,after,untouched⟩ :=
    rmExtents_ok start bh (by rwa [reverse_reverse]) (fun e member => clear e (mem_reverse.mp member))
      backwards
  refine ⟨kept.reverse,_,sb',by rw [mlfsExtRmLeaf,done]; rfl,?_,by rwa [extentBlocks_reverse],?_⟩
  · rw [shape,filterMap_reverse,reverse_reverse]
  · intro nonempty
    rw [head?_reverse]
    cases first with
    | true =>
      rw [if_pos rfl]
      cases last : kept.getLast? with
      | none => simp [getLast?_eq_none_iff.mp last] at nonempty
      | some e => rfl
    | false =>
      obtain ⟨e,rest,rfl,same⟩ := Exact.cons begins
      have kept_first := untouched rfl e (by simp)
      rw [shape,filterMap_reverse,getLast?_reverse,filterMap_cons,kept_first]
      simpa using same

end Leaf

theorem NodeOk.extents_ne {d room key : Nat} {node : Tree d} (ok : NodeOk room key node)
    (exact : Exact (leaves key node)) : extents node ≠ [] := by
  obtain ⟨leaf,rest,shape⟩ := ok.first_leaf
  rw [shape] at exact
  obtain ⟨ex,more,rfl,_⟩ := Exact.cons (exact (key,leaf) (by simp))
  rw [←leaves_extents key,shape]
  simp

structure Kept {d : Nat} (entries : List (ExtentIdx × Tree d)) : Prop where
  ok : ∀ e ∈ entries,NodeOk mlfsExtSpaceBlock e.1.eiBlock e.2
  exact : Exact (entryLeaves entries)

section Kept
variable {d : Nat}

theorem Kept.append {left right : List (ExtentIdx × Tree d)} : Kept (left ++ right) ↔ Kept left ∧ Kept right := by
  constructor
  · intro kept
    have exact := kept.exact
    rw [entryLeaves_append] at exact
    obtain ⟨first,second⟩ := Exact.append.mp exact
    exact ⟨⟨fun e member => kept.ok e (mem_append_left right member),first⟩,
      ⟨fun e member => kept.ok e (mem_append_right left member),second⟩⟩
  · rintro ⟨first,second⟩
    refine ⟨fun e member => ?_,by rw [entryLeaves_append]; exact Exact.append.mpr ⟨first.exact,second.exact⟩⟩
    rcases mem_append.mp member with early | late
    · exact first.ok e early
    · exact second.ok e late

variable {child : Tree d} {held : Multiset Nat} {sb : SuperBlock}

theorem Kept.single {pIdx : ExtentIdx} :
    Kept [(pIdx,child)] ↔ NodeOk mlfsExtSpaceBlock pIdx.eiBlock child ∧ Exact (leaves pIdx.eiBlock child) := by
  constructor
  · intro kept
    exact ⟨kept.ok (pIdx,child) (by simp),by simpa using kept.exact⟩
  · rintro ⟨ok,exact⟩
    refine ⟨fun e member => ?_,by simpa using exact⟩
    cases mem_singleton.mp member
    exact ok

theorem Kept.nil : Kept ([] : List (ExtentIdx × Tree d)) :=
  ⟨fun _ member => absurd member not_mem_nil,fun _ member => absurd member not_mem_nil⟩

def ChildOk (key : Nat) (child : Tree d) (k : Option Nat) : Prop :=
  isEmptyNode child = false → NodeOk mlfsExtSpaceBlock (k.getD key) child ∧ Exact (leaves (k.getD key) child)

theorem settleChild_ok (bh : Option Nat) (first : Bool) {pIdx : ExtentIdx} {k : Option Nat}
    {right : List (ExtentIdx × Tree d)}
    (childOk : ChildOk pIdx.eiBlock child k) (kept : Kept right)
    (working : Working sb (held + ({pIdx.eiLeaf} + nodes child + entryNodes right))) :
    ∃ after k' sb', settleChild bh first pIdx child k right sb = some (after,k',sb') ∧ Kept after ∧
      entryExtents after = extents child ++ entryExtents right ∧
      Working sb' (held + entryNodes after) ∧
      (after = if isEmptyNode child then right else (⟨k.getD pIdx.eiBlock,pIdx.eiLeaf⟩,child) :: right) ∧
      (first = true → after ≠ [] → topBlock (indexNode after) = some (k'.getD pIdx.eiBlock)) ∧
      (first = false → k' = none) := by
  have dirty : ∀ {sb : SuperBlock} {held : Multiset Nat}, Working sb held → Working (dirtyNode bh sb) held := by
    intro sb held working
    cases bh with
    | none => exact working
    | some block => exact working.mark block
  have marked : Working (if k.isSome then dirtyNode bh sb else sb)
      (held + ({pIdx.eiLeaf} + nodes child + entryNodes right)) := by
    split
    · exact dirty working
    · exact working
  unfold settleChild
  simp only
  by_cases empty : isEmptyNode child = true
  · obtain ⟨noExtents,noNodes⟩ := isEmptyNode_parts empty
    have held' : Working (dirtyNode bh (if k.isSome then dirtyNode bh sb else sb))
        (held + entryNodes right + span pIdx.eiLeaf 1) := by
      have parts : held + ({pIdx.eiLeaf} + nodes child + entryNodes right) =
          held + entryNodes right + span pIdx.eiLeaf 1 := by
        rw [noNodes,span_one]
        abel
      rw [parts] at marked
      exact dirty marked
    obtain ⟨sb',freed,after⟩ := held'.give_back (by simp)
    rw [if_pos empty,freed]
    refine ⟨right,_,sb',rfl,kept,by simp [noExtents],after,by simp [empty],?_,?_⟩
    · intro yes nonempty
      obtain ⟨e,rest,rfl⟩ := exists_cons_of_ne_nil nonempty
      rw [if_pos yes]
      rfl
    · intro no
      simp [no]
  · have filled : isEmptyNode child = false := by simpa using empty
    obtain ⟨ok,exact⟩ := childOk filled
    rw [if_neg empty]
    refine ⟨_,_,_,rfl,?_,by simp,?_,by simp [filled],?_,?_⟩
    · exact Kept.append.mpr ⟨Kept.single.mpr ⟨ok,exact⟩,kept⟩
    · simpa using marked
    · intro yes _
      rw [if_pos yes]
      rfl
    · intro no
      simp [no]

def Removes (start stop : Nat)
    (rm : Option Nat → Tree d → SuperBlock → Option (Tree d × Option Nat × SuperBlock)) : Prop :=
  ∀ (bh : Option Nat) (key : Nat) (node : Tree d) (sb : SuperBlock) (held : Multiset Nat),
    NodeOk mlfsExtSpaceBlock key node → Exact (leaves key node) → InOrder (extents node) →
    (∀ e ∈ extents node, e.eeBlock + e.eeLen ≤ stop + 1) →
    Working sb (held + (extentBlocks (extents node) + nodes node)) →
    ∃ node' k sb', rm bh node sb = some (node',k,sb') ∧
      extents node' = (extents node).filterMap (trim start stop) ∧
      Working sb' (held + (extentBlocks (extents node') + nodes node')) ∧ ChildOk key node' k

variable {start stop : Nat}

@[simp] theorem topBlock_cons {e : ExtentIdx × Tree d} {rest : List (ExtentIdx × Tree d)} :
    topBlock (indexNode (e :: rest)) = some e.1.eiBlock := rfl

theorem rmEntries_ok {rm : Option Nat → Tree d → SuperBlock → Option (Tree d × Option Nat × SuperBlock)}
    (removes : Removes start stop rm) (bh key : Option Nat) {left right : List (ExtentIdx × Tree d)}
    {old : Nat} (keptLeft : Kept left.reverse) (keptRight : Kept right)
    (order : InOrder (entryExtents left.reverse))
    (below : ∀ e ∈ entryExtents left.reverse, e.eeBlock + e.eeLen ≤ stop + 1)
    (done : left = [] → right ≠ [] → topBlock (indexNode right) = some (key.getD old))
    (ahead : left ≠ [] → topBlock (indexNode left.reverse) = some old)
    (working : Working sb
      (held + (extentBlocks (entryExtents left.reverse) + entryNodes left + entryNodes right))) :
    ∃ entries key' sb', rmEntries rm bh left right key sb = some (entries,key',sb') ∧ Kept entries ∧
      entries.length ≤ left.length + right.length ∧
      entryExtents entries = (entryExtents left.reverse).filterMap (trim start stop) ++ entryExtents right ∧
      Working sb' (held + (extentBlocks ((entryExtents left.reverse).filterMap (trim start stop)) +
        entryNodes entries)) ∧
      (entries ≠ [] → topBlock (indexNode entries) = some (key'.getD old)) := by
  induction left generalizing right key sb held with
  | nil =>
    refine ⟨right,key,sb,rfl,keptRight,by simp,by simp,?_,done rfl⟩
    simpa using working
  | cons e left ih =>
    obtain ⟨pIdx,child⟩ := e
    rw [reverse_cons] at keptLeft ahead
    rw [reverse_cons,entryExtents_append,entryExtents_cons,entryExtents_nil,append_nil] at order below working ⊢
    obtain ⟨keptMore,keptChild⟩ := Kept.append.mp keptLeft
    obtain ⟨childOk,childExact⟩ := Kept.single.mp keptChild
    have first : ∀ e' : ExtentIdx × Tree d, ∀ more, left.reverse = e' :: more → e'.1.eiBlock = old := by
      intro e' more shape
      have top := ahead (by simp)
      rw [shape] at top
      simpa using top
    have parts : held + (extentBlocks (entryExtents left.reverse ++ extents child) +
          entryNodes ((pIdx,child) :: left) + entryNodes right) =
        (held + extentBlocks (entryExtents left.reverse) + entryNodes left + {pIdx.eiLeaf} + entryNodes right) +
          (extentBlocks (extents child) + nodes child) := by
      simp only [extentBlocks_append,entryNodes_cons]
      abel
    rw [parts] at working
    obtain ⟨child',k,sb₁,removed,shape,working₁,settled⟩ := removes (some pIdx.eiLeaf) pIdx.eiBlock child sb _
      childOk childExact order.parts.2.1 (fun e member => below e (mem_append_right _ member)) working
    have parts₁ : (held + extentBlocks (entryExtents left.reverse) + entryNodes left + {pIdx.eiLeaf} +
          entryNodes right) + (extentBlocks (extents child') + nodes child') =
        (held + extentBlocks (entryExtents left.reverse) + entryNodes left + extentBlocks (extents child')) +
          ({pIdx.eiLeaf} + nodes child' + entryNodes right) := by abel
    rw [parts₁] at working₁
    obtain ⟨after,key₁,sb₂,settle,keptAfter,afterExtents,working₂,afterShape,top,noKey⟩ :=
      settleChild_ok bh left.isEmpty settled keptRight working₁
    simp only [rmEntries,removed,settle,bind_eq_bind,bind_some]
    by_cases empty : isEmptyNode child' = true
    · -- The child is gone, the walk goes on.
      obtain ⟨noExtents,_⟩ := isEmptyNode_parts empty
      rw [if_pos empty] at afterShape
      subst afterShape
      rw [if_pos empty]
      have parts₂ : held + extentBlocks (entryExtents left.reverse) + entryNodes left +
            extentBlocks (extents child') + entryNodes after =
          held + (extentBlocks (entryExtents left.reverse) + entryNodes left + entryNodes after) := by
        rw [noExtents,extentBlocks_nil]
        abel
      rw [parts₂] at working₂
      have done' : left = [] → after ≠ [] → topBlock (indexNode after) = some (key₁.getD old) := by
        intro none nonempty
        have begin := ahead (by simp)
        rw [none] at begin
        have same : pIdx.eiBlock = old := by simpa using begin
        rw [←same]
        exact top (by simp [none]) nonempty
      have ahead' : left ≠ [] → topBlock (indexNode left.reverse) = some old := by
        intro more
        obtain ⟨e',rest,shape'⟩ := exists_cons_of_ne_nil (show left.reverse ≠ [] by simpa using more)
        rw [shape',topBlock_cons,first e' rest shape']
      obtain ⟨entries,key',sb',walk,keptEntries,count,listed,working₃,begins⟩ :=
        ih key₁ keptMore keptRight order.parts.1 (fun e member => below e (mem_append_left _ member))
          done' ahead' working₂
      refine ⟨entries,key',sb',walk,keptEntries,?_,?_,?_,begins⟩
      · simp only [length_cons]
        omega
      · rw [listed,filterMap_append,←shape,noExtents]
        simp
      · rw [filterMap_append,←shape,noExtents,append_nil]
        exact working₃
    · -- What is left of the child keeps everything before it.
      have filled : isEmptyNode child' = false := by simpa using empty
      obtain ⟨restOk,restExact⟩ := settled filled
      have rest := restOk.extents_ne restExact
      rw [shape] at rest
      have untouched := kept_before order (fun e member => below e (mem_append_right _ member)) rest
      have same := filterMap_trim_kept fun e member => (Or.inl (untouched e member) : _ ∨ stop < e.eeBlock)
      rw [if_neg empty]
      rw [if_neg empty] at afterShape
      refine ⟨left.reverse ++ after,key₁,sb₂,rfl,Kept.append.mpr ⟨keptMore,keptAfter⟩,?_,?_,?_,?_⟩
      · rw [afterShape]
        simp only [length_append,length_reverse,length_cons]
        omega
      · rw [entryExtents_append,afterExtents,filterMap_append,same,←shape,append_assoc]
      · rw [filterMap_append,same,←shape]
        have parts₂ : held + extentBlocks (entryExtents left.reverse) + entryNodes left +
              extentBlocks (extents child') + entryNodes after =
            held + (extentBlocks (entryExtents left.reverse ++ extents child') +
              entryNodes (left.reverse ++ after)) := by
          simp only [extentBlocks_append,entryNodes_append,entryNodes_reverse]
          abel
        rwa [parts₂] at working₂
      · intro _
        cases none : left.reverse with
        | nil =>
          have begin := ahead (by simp)
          rw [none] at begin
          have same : pIdx.eiBlock = old := by simpa using begin
          rw [←same,nil_append]
          exact top (by simpa using none) (by rw [afterShape]; simp)
        | cons e' more =>
          have notEmpty : left.isEmpty = false := by
            cases left with
            | nil => cases none
            | cons x y => rfl
          rw [noKey notEmpty,cons_append,topBlock_cons,first e' more none]
          rfl

theorem rmNode_ok (start stop d : Nat) : Removes start stop (rmNode start stop (d:=d)) := by
  induction d with
  | zero =>
    intro bh key node sb held ok exact order below working
    have working' : Working sb (held + extentBlocks (leafOf node)) := by simpa [extents,nodes] using working
    obtain ⟨leaf,k,sb',done,shape,after,begins⟩ := rmLeaf_ok start bh order
      (fun e member => Or.inr (below e member)) (exact (key,leafOf node) (by simp [leaves])) working'
    refine ⟨leafNode leaf,k,sb',done,shape,by simpa using after,fun filled => ?_⟩
    have nonempty : leaf ≠ [] := by
      rintro rfl
      cases filled
    refine ⟨?_,?_⟩
    · change leaf.length ≤ mlfsExtSpaceBlock
      rw [shape]
      exact (length_filterMap_le ..).trans ok
    · intro l member
      cases mem_singleton.mp member
      exact begins nonempty
  | succ d ih =>
    intro bh key node sb held ok exact order below working
    obtain ⟨count,top,children⟩ := ok
    have back : (entriesOf node).reverse.reverse = entriesOf node := reverse_reverse _
    have working' : Working sb (held + (extentBlocks (entryExtents (entriesOf node).reverse.reverse) +
        entryNodes (entriesOf node).reverse + entryNodes ([] : List (ExtentIdx × Tree d)))) := by
      rw [back,entryNodes_reverse,entryNodes_nil,add_zero]
      exact working
    obtain ⟨entries,k,sb',done,kept,fewer,listed,after,begins⟩ := rmEntries_ok ih bh none
      (by rw [back]; exact ⟨children,exact⟩) Kept.nil (by rw [back]; exact order) (by rw [back]; exact below)
      (fun _ none => absurd rfl none) (fun _ => by rw [back]; exact top) working'
    rw [back,entryExtents_nil,append_nil] at listed
    rw [back,←listed] at after
    refine ⟨indexNode entries,k,sb',done,listed,after,fun filled => ?_⟩
    have nonempty : entries ≠ [] := by
      rintro rfl
      cases filled
    refine ⟨⟨?_,begins nonempty,kept.ok⟩,kept.exact⟩
    simp only [length_reverse,length_nil,add_zero] at fewer
    exact fewer.trans count

theorem rmUp_ok {top key : Nat} {path : ExtPath d top} {k : Option Nat} (ok : PathOk path key) (before : Exact (leavesBefore path))
    (after : Exact (leavesAfter path))
    (childOk : isEmptyNode child = false →
      NodeOk (ehMax path) (k.getD key) child ∧ Exact (leaves (k.getD key) child))
    (order : InOrder (extentsBefore path)) (below : ∀ e ∈ extentsBefore path, e.eeBlock + e.eeLen ≤ stop + 1)
    (large : ∀ b ∈ pathNodes path, mlfsExtSpaceRoot < b)
    (working : Working sb (held + (extentBlocks (extentsBefore path) + nodes child + pathNodes path))) :
    ∃ node sb', rmUp start stop path child k sb = some (node,sb') ∧
      extents node = (extentsBefore path).filterMap (trim start stop) ++ extents child ++ extentsAfter path ∧
      (isEmptyNode node = false → ∃ key', NodeOk mlfsExtSpaceRoot key' node ∧ Exact (leaves key' node)) := by
  induction path generalizing key k sb held with
  | root => exact ⟨child,sb,rfl,by simp [extentsBefore,extentsAfter],fun filled => ⟨_,childOk filled⟩⟩
  | under left pIdx right up ih =>
    obtain ⟨rfl,leftOk,rightOk,count,above⟩ := ok
    obtain ⟨beforeUp,leftExact⟩ := Exact.append.mp before
    obtain ⟨rightExact,afterUp⟩ := Exact.append.mp after
    simp only [extentsBefore,extentsAfter,pathNodes] at order below large working ⊢
    have parts : held + (extentBlocks (extentsBefore up ++ entryExtents left) + nodes child +
          (entryNodes left + {pIdx.eiLeaf} + entryNodes right + pathNodes up)) =
        (held + extentBlocks (extentsBefore up) + extentBlocks (entryExtents left) + entryNodes left +
          pathNodes up) + ({pIdx.eiLeaf} + nodes child + entryNodes right) := by
      rw [extentBlocks_append]
      abel
    rw [parts] at working
    obtain ⟨rest,key₁,sb₁,settle,keptRest,restExtents,working₁,restShape,top,noKey⟩ :=
      settleChild_ok (pBh up) left.isEmpty childOk ⟨rightOk,rightExact⟩ working
    have restCount : rest.length ≤ right.length + 1 := by
      rw [restShape]
      split <;> simp
    -- The number of entries cannot be the block number that the lookup left at the root.
    have goesOn : ¬ (pBh up = none ∧ left.length + rest.length = pIdx.eiLeaf) := by
      rintro ⟨atRoot,same⟩
      have big := large pIdx.eiLeaf (by simp)
      cases up with
      | root =>
        simp only [ehMax] at count
        omega
      | under left' pIdx' right' up' => cases atRoot
    have back : left.reverse.reverse = left := reverse_reverse left
    have parts₁ : held + extentBlocks (extentsBefore up) + extentBlocks (entryExtents left) + entryNodes left +
          pathNodes up + entryNodes rest =
        (held + extentBlocks (extentsBefore up) + pathNodes up) +
          (extentBlocks (entryExtents left.reverse.reverse) + entryNodes left.reverse + entryNodes rest) := by
      rw [back,entryNodes_reverse]
      abel
    rw [parts₁] at working₁
    have done : left.reverse = [] → rest ≠ [] →
        topBlock (indexNode rest) = some (key₁.getD (firstKey left pIdx)) := by
      intro none nonempty
      cases reverse_eq_nil_iff.mp none
      exact top rfl nonempty
    have ahead : left.reverse ≠ [] → topBlock (indexNode left.reverse.reverse) = some (firstKey left pIdx) := by
      intro some
      rw [back]
      cases left with
      | nil => exact absurd rfl some
      | cons e more => rfl
    obtain ⟨entries,key₂,sb₂,walk,kept,fewer,listed,working₂,begins⟩ :=
      rmEntries_ok (rmNode_ok start stop _) (pBh up) key₁ (by rw [back]; exact ⟨leftOk,leftExact⟩) keptRest
        (by rw [back]; exact order.parts.2.1)
        (by rw [back]; exact fun e member => below e (mem_append_right _ member)) done ahead working₁
    rw [back] at listed working₂
    rw [length_reverse] at fewer
    have parts₂ : held + extentBlocks (extentsBefore up) + pathNodes up +
          (extentBlocks ((entryExtents left).filterMap (trim start stop)) + entryNodes entries) =
        (held + extentBlocks ((entryExtents left).filterMap (trim start stop))) +
          (extentBlocks (extentsBefore up) + nodes (indexNode entries) + pathNodes up) := by
      rw [nodes_index]
      abel
    rw [parts₂] at working₂
    have nodeOk : isEmptyNode (indexNode entries) = false →
        NodeOk (ehMax up) (key₂.getD (firstKey left pIdx)) (indexNode entries) ∧
          Exact (leaves (key₂.getD (firstKey left pIdx)) (indexNode entries)) := by
      intro filled
      have nonempty : entries ≠ [] := by
        rintro rfl
        cases filled
      exact ⟨⟨by change entries.length ≤ _; omega,begins nonempty,kept.ok⟩,kept.exact⟩
    obtain ⟨node,sb',finish,whole,shape⟩ := ih above beforeUp afterUp nodeOk order.parts.1
      (fun e member => below e (mem_append_left _ member))
      (fun b member => large b (Multiset.mem_add.mpr (Or.inr member))) working₂
    refine ⟨node,sb',?_,?_,shape⟩
    · simp only [rmUp,settle,bind_eq_bind,bind_some,if_neg goesOn,walk,finish]
    · rw [whole,extents_index,listed,restExtents,filterMap_append]
      simp

end Kept

section Tree
variable {root : ExtRoot} {c : Cursor root.ehDepth} {key place start stop : Nat} {left right : List Extent}
  {ex : Extent} {sb : SuperBlock} {held : Multiset Nat}

theorem emptiedRoot_ok {d : Nat} {node : Tree d} (order : InOrder (extents node))
    (shape : isEmptyNode node = false → ∃ key, NodeOk mlfsExtSpaceRoot key node ∧ Exact (leaves key node)) :
    TreeOk (emptiedRoot ⟨d,node⟩) := by
  by_cases empty : isEmptyNode node = true
  · have emptied : emptiedRoot ⟨d,node⟩ = ⟨0,leafNode []⟩ := if_pos empty
    rw [emptied]
    exact ⟨Or.inl rfl,⟨fun _ member => absurd member not_mem_nil,.nil⟩⟩
  · have kept : emptiedRoot ⟨d,node⟩ = ⟨d,node⟩ := if_neg empty
    rw [kept]
    exact ⟨Or.inr (shape (by simpa using empty)),order⟩

theorem removeFrom_ok (treeOk : TreeOk root) (at_ : Located root place c key left ex right) (low : stop ≤ place)
    (high : place ≤ stop + 1) (clear : ∀ e ∈ extents root.node, Clear stop e)
    (large : ∀ b ∈ nodes root.node, mlfsExtSpaceRoot < b)
    (working : Working sb (held + (extentBlocks (extents root.node) + nodes root.node))) :
    ∃ root' sb', removeFrom root c start stop sb = some (root',sb') ∧ TreeOk root' ∧
      extents root'.node = (extents root.node).filterMap (trim start stop) := by
  have order := treeOk.order
  rw [at_.on.extents] at order clear working ⊢
  rw [at_.on.nodes] at large working
  have parts : held + (extentBlocks (extentsBefore c.path ++ c.leaf ++ extentsAfter c.path) + pathNodes c.path) =
      (held + extentBlocks (extentsBefore c.path) + extentBlocks (extentsAfter c.path) + pathNodes c.path) +
        extentBlocks c.leaf := by
    simp only [extentBlocks_append]
    abel
  rw [parts] at working
  obtain ⟨leaf,k,sb₁,removed,shape,working₁,begins⟩ := rmLeaf_ok start (pBh c.path) order.parts.1.parts.2.1
    (fun e member => clear e (by simp [member])) at_.start working
  have parts₁ : (held + extentBlocks (extentsBefore c.path) + extentBlocks (extentsAfter c.path) +
        pathNodes c.path) + extentBlocks leaf =
      (held + extentBlocks (extentsAfter c.path) + extentBlocks leaf) +
        (extentBlocks (extentsBefore c.path) + nodes (leafNode leaf) + pathNodes c.path) := by
    rw [nodes_leaf]
    abel
  rw [parts₁] at working₁
  have leafOk : isEmptyNode (leafNode leaf) = false →
      NodeOk (ehMax c.path) (k.getD key) (leafNode leaf) ∧ Exact (leaves (k.getD key) (leafNode leaf)) := by
    intro filled
    have nonempty : leaf ≠ [] := by
      rintro rfl
      cases filled
    refine ⟨?_,?_⟩
    · change leaf.length ≤ _
      rw [shape]
      exact (length_filterMap_le ..).trans at_.fits
    · intro l member
      cases mem_singleton.mp member
      exact begins nonempty
  have below : ∀ e ∈ extentsBefore c.path, e.eeBlock + e.eeLen ≤ stop + 1 := by
    intro e member
    have near : ex.eeBlock ≤ place := by
      refine at_.low.resolve_left fun none => ?_
      rw [(append_eq_nil_iff.mp none).1] at member
      cases member
    have ahead : Before e ex := order.parts.1.parts.2.2 e member ex (by simp [at_.leaf])
    unfold Before at ahead
    omega
  have beyond : (extentsAfter c.path).filterMap (trim start stop) = extentsAfter c.path := by
    refine filterMap_trim_kept fun e member => Or.inr ?_
    have bound := at_.high e (mem_append_right _ member)
    omega
  obtain ⟨node,sb₂,finish,whole,nodeOk⟩ := rmUp_ok at_.path at_.before at_.after leafOk order.parts.1.parts.1 below
    large working₁
  have trimmed : extents node = (extentsBefore c.path ++ c.leaf ++ extentsAfter c.path).filterMap (trim start stop) := by
    rw [whole,filterMap_append,filterMap_append,beyond,←shape]
    rfl
  refine ⟨emptiedRoot ⟨root.ehDepth,node⟩,sb₂,?_,?_,?_⟩
  · simp only [removeFrom,removed,finish,bind_eq_bind,bind_some]
  · refine emptiedRoot_ok ?_ nodeOk
    rw [trimmed]
    exact order.trim
  · rw [(emptiedRoot_parts _).1]
    exact trimmed

theorem InOrder.shorten {before after : List Extent} (order : InOrder (before ++ ex :: after)) (len : Nat)
    (positive : 0 < len) (shorter : len ≤ ex.eeLen) : InOrder (before ++ {ex with eeLen := len} :: after) := by
  obtain ⟨early,rest,between⟩ := order.parts
  obtain ⟨behind,tail⟩ := pairwise_cons.mp rest.sorted
  have valid := rest.valid ex (by simp)
  have short := valid.short
  have inside := valid.inside
  refine early.append ⟨?_,pairwise_cons.mpr ⟨?_,tail⟩⟩ ?_
  · intro e member
    rcases mem_cons.mp member with rfl | later
    · exact ⟨positive,by simp only; omega,by simp only; omega⟩
    · exact rest.valid e (mem_cons_of_mem ex later)
  · intro e member
    have ahead : Before ex e := behind e member
    unfold Before at ahead ⊢
    simp only
    omega
  · intro e member f other
    rcases mem_cons.mp other with rfl | later
    · exact between e member ex (by simp)
    · exact between e member f (mem_cons_of_mem ex later)

def frontPart (ex : Extent) (stop : Nat) : Extent := {ex with eeLen := stop + 1 - ex.eeBlock}
def backPart (ex : Extent) (stop : Nat) : Extent :=
  ⟨stop + 1,ex.eeLen - (stop + 1 - ex.eeBlock),stop + 1 - ex.eeBlock + ex.eeStart⟩

theorem forceSplit_eq (root : ExtRoot) (c : Cursor root.ehDepth) (i : Nat) (ex : Extent) (stop : Nat)
    (sb : SuperBlock) : ∃ place, mlfsForceSplitExtentAt root c i ex (stop + 1) sb =
      (mlfsExtInsertExtent ⟨root.ehDepth,plug c.path (leafNode (c.leaf.set i (frontPart ex stop)))⟩
        ⟨c.path,c.leaf.set i (frontPart ex stop),some i⟩ (backPart ex stop) true (mlfsExtDirty c.path sb)).map
        (fun r => (r.1,place,r.2)) ∧ (place = stop + 1 ∨ place = stop) := by
  refine ⟨if (c.leaf.set i (frontPart ex stop)).length < ehMax c.path ∨
      siblingWithSpace ⟨root.ehDepth,plug c.path (leafNode (c.leaf.set i (frontPart ex stop)))⟩
        ⟨c.path,c.leaf.set i (frontPart ex stop),some i⟩ (backPart ex stop) = none then stop + 1 else stop,?_,?_⟩
  · rw [mlfsForceSplitExtentAt,Option.map_eq_bind]
    rfl
  · split
    · exact Or.inl rfl
    · exact Or.inr rfl

theorem forceSplit_ok (treeOk : TreeOk root) (at_ : Located root stop c key left ex right)
    (low : ex.eeBlock ≤ stop) (high : stop < ex.eeBlock + ex.eeLen - 1)
    (working : Working sb (held + nodes root.node))
    (go : Proceeds (root.ehDepth + 2 < sb.free.card) (mlfsForceSplitExtentAt root c left.length ex (stop + 1) sb)) :
    ∃ root' place sb', mlfsForceSplitExtentAt root c left.length ex (stop + 1) sb = some (root',place,sb') ∧
      TreeOk root' ∧ stop ≤ place ∧ place ≤ stop + 1 ∧
      ∃ before after, extents root'.node = before ++ backPart ex stop :: after ∧
        before ++ after = (extentsBefore c.path ++ left) ++ frontPart ex stop :: (right ++ extentsAfter c.path) := by
  have order := treeOk.order
  rw [at_.listing] at order
  obtain ⟨_,rest,between⟩ := order.parts
  have behind : ∀ e ∈ right ++ extentsAfter c.path, ex.eeBlock + ex.eeLen ≤ e.eeBlock :=
    (pairwise_cons.mp rest.sorted).1
  have valid := rest.valid ex (by simp)
  have shorter : c.leaf.set left.length (frontPart ex stop) = left ++ frontPart ex stop :: right := by
    rw [at_.leaf,set_append_right _ _ (le_refl _)]
    simp
  have orderShort := order.shorten (stop + 1 - ex.eeBlock) (by omega) (by omega)
  change InOrder ((extentsBefore c.path ++ left) ++ frontPart ex stop :: (right ++ extentsAfter c.path)) at orderShort
  have listed : (extentsBefore c.path ++ left) ++ frontPart ex stop :: (right ++ extentsAfter c.path) =
      extentsBefore c.path ++ (left ++ frontPart ex stop :: right) ++ extentsAfter c.path := by simp
  have fits : (left ++ frontPart ex stop :: right).length ≤ ehMax c.path := by
    have count := at_.fits
    rw [at_.leaf] at count
    simpa using count
  have begins : (left ++ frontPart ex stop :: right).head?.map (·.eeBlock) = some key := by
    have start := at_.start
    rw [at_.leaf] at start
    cases left <;> exact start
  have shortOk : TreeOk ⟨root.ehDepth,plug c.path (leafNode (left ++ frontPart ex stop :: right))⟩ :=
    treeOk_plug at_.path at_.before at_.after fits begins (listed ▸ orderShort)
  have shortAt : Located ⟨root.ehDepth,plug c.path (leafNode (left ++ frontPart ex stop :: right))⟩
      (backPart ex stop).eeBlock ⟨c.path,left ++ frontPart ex stop :: right,some left.length⟩ key left
      (frontPart ex stop) right := by
    refine ⟨⟨rfl,at_.path,fits,⟨at_.cut.early.imp_right fun small => Nat.le_succ_of_le small,?_⟩⟩,
      at_.before,at_.after,begins,rfl,rfl,Or.inr (Nat.le_succ_of_le low),?_⟩
    · intro l member
      obtain ⟨f,more,shape,same⟩ := Exact.cons (at_.after l member)
      have inside : f ∈ extentsAfter c.path := by
        rw [←leavesAfter_extents]
        exact mem_flatMap.mpr ⟨l,member,by simp [shape]⟩
      have bound := behind f (mem_append_right _ inside)
      rw [←same]
      simp only [backPart]
      omega
    · intro e member
      have bound := behind e member
      simp only [backPart]
      omega
  have newValid : (backPart ex stop).Valid := by
    have short := valid.short
    have inside := valid.inside
    exact ⟨by simp only [backPart]; omega,by simp only [backPart]; omega,by simp only [backPart]; omega⟩
  have apart : ∀ e ∈ (extentsBefore c.path ++ left) ++ frontPart ex stop :: (right ++ extentsAfter c.path),
      Apart e (backPart ex stop) := by
    intro e member
    rcases mem_append.mp member with early | late
    · have ahead : Before e ex := between e early ex (by simp)
      unfold Before at ahead
      refine Or.inl ?_
      simp only [Before,backPart]
      omega
    · rcases mem_cons.mp late with rfl | later
      · refine Or.inl ?_
        simp only [Before,backPart,frontPart]
        omega
      · have bound := behind e later
        refine Or.inr ?_
        simp only [Before,backPart]
        omega
  have extentsShort : extents (plug c.path (leafNode (left ++ frontPart ex stop :: right))) =
      (extentsBefore c.path ++ left) ++ frontPart ex stop :: (right ++ extentsAfter c.path) := by
    rw [extents_plug,listed]
    rfl
  have nodesSame : nodes (plug c.path (leafNode (left ++ frontPart ex stop :: right))) = nodes root.node := by
    rw [nodes_plug,at_.on.nodes]
    simp
  have dirtied : Working (mlfsExtDirty c.path sb)
      (held + nodes (plug c.path (leafNode (left ++ frontPart ex stop :: right)))) := by
    rw [nodesSame,mlfsExtDirty]
    cases pBh c.path with
    | none => exact working
    | some block => exact working.mark block
  have free : (mlfsExtDirty c.path sb).free = sb.free := by
    rw [mlfsExtDirty]
    cases pBh c.path with
    | none => rfl
    | some block => exact markBufferDirty_free sb block
  obtain ⟨place,done,near⟩ := forceSplit_eq root c left.length ex stop sb
  rw [shorter] at done
  obtain ⟨root',sb',inserted,ok',before,after,cut,_,placed⟩ := insertExtent_ok true shortOk shortAt newValid
    (by rw [extentsShort]; exact apart) dirtied (go.of_imp (by rw [free]; exact id) fun none => by rw [done,none]; rfl)
  rw [inserted,map_some] at done
  exact ⟨root',place,sb',done,ok',by omega,by omega,before,after,placed rfl,cut ▸ extentsShort⟩

end Tree

end Assise.Extents
