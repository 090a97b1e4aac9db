import Assise.ExtentsLedger

-- The shape of an extent tree and what a lookup finds in it.
namespace Assise.Extents

open Balloc Lib.BinarySearch List

-- A node below an index entry with key `key`: it fits its block, and an index node starts with the key of its entry.
def NodeOk : {d : Nat} → Nat → Nat → Tree d → Prop
  | 0,room,_,leaf => (leafOf leaf).length ≤ room
  | _ + 1,room,key,node => (entriesOf node).length ≤ room ∧ topBlock node = some key ∧
      ∀ e ∈ entriesOf node, NodeOk mlfsExtSpaceBlock e.1.eiBlock e.2

-- The leaves from left to right, each with the key of its index entry; `key` stands for the entry of the node itself.
def leaves : {d : Nat} → Nat → Tree d → List (Nat × List Extent)
  | 0,key,leaf => [(key,leafOf leaf)]
  | _ + 1,_,node => (entriesOf node).flatMap fun e => leaves e.1.eiBlock e.2

def entryLeaves {d : Nat} (entries : List (ExtentIdx × Tree d)) : List (Nat × List Extent) :=
  entries.flatMap fun e => leaves e.1.eiBlock e.2

@[simp] theorem leaves_leaf (key : Nat) (leaf : List Extent) : leaves key (leafNode leaf) = [(key,leaf)] := rfl

@[simp] theorem leaves_index {d : Nat} (key : Nat) (entries : List (ExtentIdx × Tree d)) :
    leaves key (indexNode entries) = entryLeaves entries := rfl

section Entries
variable {d : Nat}

@[simp] theorem entryLeaves_nil : entryLeaves ([] : List (ExtentIdx × Tree d)) = [] := rfl
@[simp] theorem entryLeaves_cons (e : ExtentIdx × Tree d) (rest : List (ExtentIdx × Tree d)) :
    entryLeaves (e :: rest) = leaves e.1.eiBlock e.2 ++ entryLeaves rest := rfl
@[simp] theorem entryLeaves_append (left right : List (ExtentIdx × Tree d)) :
    entryLeaves (left ++ right) = entryLeaves left ++ entryLeaves right := by simp [entryLeaves]

theorem leaves_extents (key : Nat) (node : Tree d) : (leaves key node).flatMap Prod.snd = extents node := by
  induction d generalizing key with
  | zero => simp [leaves,extents]
  | succ d ih =>
    rw [leaves,extents,flatMap_assoc]
    simp only [ih]

variable {key room : Nat}

theorem NodeOk.mono {room' : Nat} {node : Tree d} (ok : NodeOk room key node) (more : room ≤ room') :
    NodeOk room' key node := by
  cases d with
  | zero => exact le_trans ok more
  | succ d => exact ⟨le_trans ok.1 more,ok.2⟩

theorem NodeOk.first_leaf {node : Tree d} (ok : NodeOk room key node) :
    ∃ leaf rest, leaves key node = (key,leaf) :: rest := by
  induction d generalizing room key with
  | zero => exact ⟨leafOf node,[],rfl⟩
  | succ d ih =>
    obtain ⟨_,top,children⟩ := ok
    rw [topBlock] at top
    cases shape : entriesOf node with
    | nil => simp [shape] at top
    | cons e rest =>
      rw [shape] at top children
      have same : e.1.eiBlock = key := by simpa using top
      obtain ⟨leaf,more,first⟩ := ih (children e (by simp))
      rw [same] at first
      refine ⟨leaf,more ++ entryLeaves rest,?_⟩
      rw [leaves,shape,←entryLeaves,entryLeaves_cons,same,first]
      rfl

end Entries

def KeysSorted (ls : List (Nat × List Extent)) : Prop := (ls.map Prod.fst).Pairwise (· < ·)

theorem KeysSorted.parts {left right : List (Nat × List Extent)} (sorted : KeysSorted (left ++ right)) :
    KeysSorted left ∧ KeysSorted right ∧ ∀ a ∈ left, ∀ b ∈ right, a.1 < b.1 := by
  rw [KeysSorted,map_append,pairwise_append] at sorted
  refine ⟨sorted.1,sorted.2.1,fun a left b right => ?_⟩
  exact sorted.2.2 a.1 (mem_map_of_mem left) b.1 (mem_map_of_mem right)

def firstKey {d : Nat} (left : List (ExtentIdx × Tree d)) (pIdx : ExtentIdx) : Nat :=
  match left with
  | [] => pIdx.eiBlock
  | e :: _ => e.1.eiBlock

def PathOk : {d top : Nat} → ExtPath d top → Nat → Prop
  | _,_,.root,_ => True
  | _,_,.under left pIdx right up,key => pIdx.eiBlock = key ∧
      (∀ e ∈ left,NodeOk mlfsExtSpaceBlock e.1.eiBlock e.2) ∧
      (∀ e ∈ right,NodeOk mlfsExtSpaceBlock e.1.eiBlock e.2) ∧
      left.length + 1 + right.length ≤ ehMax up ∧ PathOk up (firstKey left pIdx)

def leavesBefore : {d top : Nat} → ExtPath d top → List (Nat × List Extent)
  | _,_,.root => []
  | _,_,.under left _ _ up => leavesBefore up ++ entryLeaves left

def leavesAfter : {d top : Nat} → ExtPath d top → List (Nat × List Extent)
  | _,_,.root => []
  | _,_,.under _ _ right up => entryLeaves right ++ leavesAfter up

def rootKey : {d top : Nat} → ExtPath d top → Nat → Nat
  | _,_,.root,key => key
  | _,_,.under left pIdx _ up,_ => rootKey up (firstKey left pIdx)

variable {top key block : Nat} {right left : List Extent} {root : ExtRoot}

variable {d top : Nat}

theorem leavesBefore_extents (path : ExtPath d top) :
    (leavesBefore path).flatMap Prod.snd = extentsBefore path := by
  induction path with
  | root => rfl
  | under left pIdx right up ih =>
    simp only [leavesBefore,extentsBefore,flatMap_append,ih]
    congr 1
    rw [entryLeaves,flatMap_assoc]
    simp only [leaves_extents]
    rfl

theorem leavesAfter_extents (path : ExtPath d top) :
    (leavesAfter path).flatMap Prod.snd = extentsAfter path := by
  induction path with
  | root => rfl
  | under left pIdx right up ih =>
    simp only [leavesAfter,extentsAfter,flatMap_append,ih]
    congr 1
    rw [entryLeaves,flatMap_assoc]
    simp only [leaves_extents]
    rfl

theorem topBlock_entries (left right : List (ExtentIdx × Tree d)) (pIdx : ExtentIdx) (node : Tree d) :
    topBlock (indexNode (left ++ (pIdx,node) :: right)) = some (firstKey left pIdx) := by
  cases left <;> rfl

variable {path : ExtPath d top} {node : Tree d}

theorem leaves_plug (ok : PathOk path key) (node : Tree d) :
    leaves (rootKey path key) (plug path node) = leavesBefore path ++ leaves key node ++ leavesAfter path := by
  induction path generalizing key with
  | root => simp [plug,rootKey,leavesBefore,leavesAfter]
  | under left pIdx right up ih =>
    obtain ⟨same,_,_,_,above⟩ := ok
    rw [plug,rootKey,ih above,leaves_index,entryLeaves_append,entryLeaves_cons,same]
    simp [leavesBefore,leavesAfter]

theorem plug_ok (ok : PathOk path key)
    (nodeOk : NodeOk (ehMax path) key node) : NodeOk mlfsExtSpaceRoot (rootKey path key) (plug path node) := by
  induction path generalizing key with
  | root => exact nodeOk
  | under left pIdx right up ih =>
    obtain ⟨same,before,after,count,above⟩ := ok
    refine ih above ⟨?_,topBlock_entries left right pIdx node,?_⟩
    · simp only [length_append,length_cons]
      omega
    · intro e member
      rcases mem_append.mp member with early | late
      · exact before e early
      · rcases mem_cons.mp late with rfl | late
        · rw [same]
          exact nodeOk
        · exact after e late

theorem keyAbove_mono {keys : List Nat} (sorted : keys.Pairwise (· < ·)) (block i j : Nat) (order : i ≤ j)
    (above : keyAbove keys block i = true) : keyAbove keys block j = true := by
  unfold keyAbove at above ⊢
  cases at_ : keys[j]? with
  | none => rfl
  | some key =>
    obtain ⟨inside,rfl⟩ := List.getElem?_eq_some_iff.mp at_
    rw [getElem?_eq_getElem (lt_of_le_of_lt order inside)] at above
    have first : block < keys[i] := by simpa using above
    rcases Nat.lt_or_eq_of_le order with before | rfl
    · exact decide_eq_true (first.trans (pairwise_iff_getElem.mp sorted i j _ inside before))
    · exact decide_eq_true first

theorem search_keys {keys : List Nat} (sorted : keys.Pairwise (· < ·)) (nonempty : keys ≠ []) (block : Nat) :
    ∃ left key right, keys = left ++ key :: right ∧
      lastNotAbove (keyAbove keys block) keys.length = left.length ∧
      (left = [] ∨ key ≤ block) ∧ ∀ k ∈ right, block < k := by
  obtain ⟨inside,low,high⟩ :=
    lastNotAbove_spec (length_pos_iff.mpr nonempty) (keyAbove_mono sorted block)
  generalize lastNotAbove (keyAbove keys block) keys.length = i at inside low high ⊢
  refine ⟨keys.take i,keys[i],keys.drop (i + 1),?_,?_,?_,?_⟩
  · rw [getElem_cons_drop,take_append_drop]
  · rw [length_take,min_eq_left (le_of_lt inside)]
  · rcases Nat.eq_zero_or_pos i with rfl | positive
    · exact Or.inl rfl
    · have below := low i positive (le_refl i)
      rw [keyAbove,getElem?_eq_getElem inside] at below
      exact Or.inr (by simpa using below)
  · intro k member
    obtain ⟨j,bound,rfl⟩ := getElem_of_mem member
    rw [length_drop] at bound
    have above := high (i + 1 + j) (by omega) (by omega)
    rw [keyAbove,getElem?_eq_getElem (by omega)] at above
    simpa using above

section Entries
variable {d : Nat}

variable {room : Nat}

theorem NodeOk.key_le (ok : NodeOk room key node)
    (sorted : KeysSorted (leaves key node)) : ∀ l ∈ leaves key node, key ≤ l.1 := by
  obtain ⟨leaf,rest,shape⟩ := ok.first_leaf
  intro l member
  rw [shape] at sorted member
  rcases mem_cons.mp member with rfl | later
  · exact le_refl _
  · exact le_of_lt ((pairwise_cons.mp sorted).1 l.1 (mem_map_of_mem later))

theorem entryKeys_sorted {entries : List (ExtentIdx × Tree d)}
    (ok : ∀ e ∈ entries,NodeOk mlfsExtSpaceBlock e.1.eiBlock e.2) (sorted : KeysSorted (entryLeaves entries)) :
    (entries.map (·.1.eiBlock)).Pairwise (· < ·) := by
  induction entries with
  | nil => exact .nil
  | cons e rest ih =>
    rw [entryLeaves_cons] at sorted
    obtain ⟨_,tail,order⟩ := sorted.parts
    have others := fun e' member => ok e' (mem_cons_of_mem e member)
    refine pairwise_cons.mpr ⟨?_,ih others tail⟩
    intro key member
    obtain ⟨e',place,rfl⟩ := mem_map.mp member
    obtain ⟨leaf,more,first⟩ := (ok e (by simp)).first_leaf
    obtain ⟨leaf',more',first'⟩ := (others e' place).first_leaf
    refine order (e.1.eiBlock,leaf) (by simp [first]) (e'.1.eiBlock,leaf') ?_
    exact mem_flatMap.mpr ⟨e',place,by simp [first']⟩

theorem binsearchIdx_spec {entries : List (ExtentIdx × Tree d)}
    (sorted : (entries.map (·.1.eiBlock)).Pairwise (· < ·)) (nonempty : entries ≠ []) (block : Nat) :
    ∃ left e right, entries = left ++ e :: right ∧ mlfsExtBinsearchIdx entries block = left.length ∧
      (left = [] ∨ e.1.eiBlock ≤ block) ∧ ∀ e' ∈ right, block < e'.1.eiBlock := by
  obtain ⟨left,key,right,cut,place,low,high⟩ := search_keys sorted (by simpa using nonempty) block
  obtain ⟨l,rest,rfl,rfl,behind⟩ := map_eq_append_iff.mp cut
  obtain ⟨e,r,rfl,rfl,rfl⟩ := map_eq_cons_iff.mp behind
  refine ⟨l,e,r,rfl,?_,by simpa using low,fun e' member => high _ (mem_map_of_mem member)⟩
  simpa [mlfsExtBinsearchIdx] using place

end Entries

-- The cut of the leaf list that a lookup of `block` makes: everything behind is above it, and the leaf's key is not,
-- unless it is the first leaf.
structure LeafAt (block : Nat) (before : List (Nat × List Extent)) (key : Nat) (after : List (Nat × List Extent)) :
    Prop where
  early : before = [] ∨ key ≤ block
  late : ∀ l ∈ after,block < l.1

theorem LeafAt.unique {before before' after after' : List (Nat × List Extent)}
    {l l' : Nat × List Extent} (same : before ++ l :: after = before' ++ l' :: after')
    (cut : LeafAt block before l.1 after) (cut' : LeafAt block before' l'.1 after') : before = before' ∧ l = l' ∧ after = after' := by
  rcases append_eq_append_iff.mp same with ⟨between,rfl,tail⟩ | ⟨between,rfl,tail⟩
  · cases between with
    | nil =>
      cases tail
      exact ⟨by simp,rfl,rfl⟩
    | cons first rest =>
      cases tail
      have behind := cut.late l' (by simp)
      have small := cut'.early.resolve_left (by simp)
      omega
  · cases between with
    | nil =>
      cases tail
      exact ⟨by simp,rfl,rfl⟩
    | cons first rest =>
      cases tail
      have behind := cut'.late l (by simp)
      have small := cut.early.resolve_left (by simp)
      omega

theorem descend_spec (block : Nat)
    (ok : NodeOk (ehMax path) key node) (above : PathOk path key)
    (sorted : KeysSorted (leavesBefore path ++ leaves key node ++ leavesAfter path))
    (cut : LeafAt block (leavesBefore path) key (leavesAfter path)) :
    ∃ place leaf k, descend block node path = some (place,leaf) ∧ PathOk place k ∧ leaf.length ≤ ehMax place ∧
      rootKey place k = rootKey path key ∧ LeafAt block (leavesBefore place) k (leavesAfter place) := by
  induction d generalizing key with
  | zero => exact ⟨path,leafOf node,key,rfl,above,ok,rfl,cut⟩
  | succ d ih =>
    obtain ⟨count,top,children⟩ := ok
    have nonempty : entriesOf node ≠ [] := by
      intro none
      rw [topBlock,none] at top
      cases top
    have inner := sorted.parts.1.parts.2.1
    obtain ⟨left,e,right,shape,place,low,high⟩ :=
      binsearchIdx_spec (entryKeys_sorted children inner) nonempty block
    have whole : leaves key node = entryLeaves left ++ leaves e.1.eiBlock e.2 ++ entryLeaves right := by
      rw [leaves,←entryLeaves,shape]
      simp
    have first : firstKey left e.1 = key := by
      have start := topBlock_entries left right e.1 e.2
      change topBlock (indexNode (left ++ e :: right)) = _ at start
      rw [←shape] at start
      exact Option.some.inj (start.symm.trans top)
    rw [shape] at children count
    have taken : (entriesOf node).take left.length = left := by
      rw [shape]
      exact take_left
    have dropped : (entriesOf node).drop (left.length + 1) = right := by
      rw [shape,←drop_drop,drop_left]
      rfl
    rw [descend,place,taken,dropped,shape]
    simp only [getElem?_append_right (le_refl left.length),Nat.sub_self,getElem?_cons_zero]
    rw [whole] at sorted inner
    have same : rootKey (.under left e.1 right path) e.1.eiBlock = rootKey path key := by rw [rootKey,first]
    rw [←same]
    refine ih (children e (by simp)) ?_ ?_ ⟨?_,?_⟩
    · refine ⟨rfl,fun e' member => children e' (by simp [member]),fun e' member => children e' (by simp [member]),?_,?_⟩
      · simp only [length_append,length_cons] at count
        omega
      · rw [first]
        exact above
    · simpa [leavesBefore,leavesAfter] using sorted
    · rcases low with rfl | low
      · have same : e.1.eiBlock = key := first
        rcases cut.early with none | small
        · exact Or.inl (by simp [leavesBefore,none])
        · exact Or.inr (by rw [same]; exact small)
      · exact Or.inr low
    · intro l member
      rcases mem_append.mp member with near | far
      · obtain ⟨e',inside,leaf⟩ := mem_flatMap.mp near
        obtain ⟨l₁,l₂,rfl⟩ := append_of_mem inside
        rw [entryLeaves_append,entryLeaves_cons] at inner
        have sortedChild := inner.parts.2.1.parts.2.1.parts.1
        exact (high e' inside).trans_le ((children e' (by simp)).key_le sortedChild l leaf)
      · exact cut.late l far

structure Found (root : ExtRoot) (block : Nat) (c : Cursor root.ehDepth) (key : Nat) : Prop where
  on : c.On root.node
  path : PathOk c.path key
  fits : c.leaf.length ≤ ehMax c.path
  cut : LeafAt block (leavesBefore c.path) key (leavesAfter c.path)

theorem find_found (root : ExtRoot) (ok : NodeOk mlfsExtSpaceRoot key root.node)
    (sorted : KeysSorted (leaves key root.node)) (block : Nat) :
    ∃ c k, mlfsFindExtent root block = some c ∧ Found root block c k ∧ c.pExt = mlfsExtBinsearch c.leaf block ∧
      leaves key root.node = leavesBefore c.path ++ (k,c.leaf) :: leavesAfter c.path := by
  have start : KeysSorted (leavesBefore (.root : ExtPath root.ehDepth root.ehDepth) ++ leaves key root.node ++
      leavesAfter (.root : ExtPath root.ehDepth root.ehDepth)) := by simpa [leavesBefore,leavesAfter] using sorted
  have fitsRoot : NodeOk (ehMax (.root : ExtPath root.ehDepth root.ehDepth)) key root.node := ok
  obtain ⟨place,leaf,k,walk,above,fits,same,cut⟩ := descend_spec block fitsRoot trivial start
    ⟨Or.inl rfl,fun l member => by cases member⟩
  have on : plug place (leafNode leaf) = root.node := descend_plug walk
  refine ⟨⟨place,leaf,mlfsExtBinsearch leaf block⟩,k,by rw [mlfsFindExtent,walk]; rfl,⟨on,above,fits,cut⟩,rfl,?_⟩
  have listed := leaves_plug above (leafNode leaf)
  rw [on,same] at listed
  simpa [rootKey] using listed

structure Extent.Valid (e : Extent) : Prop where
  positive : 0 < e.eeLen
  short : e.eeLen ≤ extInitMaxLen
  inside : e.eeBlock + e.eeLen ≤ extMaxBlocks

def Before (e f : Extent) : Prop := e.eeBlock + e.eeLen ≤ f.eeBlock

structure InOrder (es : List Extent) : Prop where
  valid : ∀ e ∈ es,e.Valid
  sorted : es.Pairwise Before

theorem InOrder.parts (order : InOrder (left ++ right)) :
    InOrder left ∧ InOrder right ∧ ∀ e ∈ left, ∀ f ∈ right, Before e f := by
  obtain ⟨first,second,between⟩ := pairwise_append.mp order.sorted
  refine ⟨⟨fun e member => order.valid e (mem_append_left right member),first⟩,?_,between⟩
  exact ⟨fun e member => order.valid e (mem_append_right left member),second⟩

theorem InOrder.append (first : InOrder left) (second : InOrder right)
    (between : ∀ e ∈ left, ∀ f ∈ right, Before e f) : InOrder (left ++ right) := by
  refine ⟨fun e member => ?_,pairwise_append.mpr ⟨first.sorted,second.sorted,between⟩⟩
  rcases mem_append.mp member with early | late
  · exact first.valid e early
  · exact second.valid e late

theorem InOrder.starts {es : List Extent} (order : InOrder es) : (es.map (·.eeBlock)).Pairwise (· < ·) := by
  induction es with
  | nil => exact .nil
  | cons e rest ih =>
    have split : InOrder ([e] ++ rest) := order
    obtain ⟨_,tail,between⟩ := split.parts
    refine pairwise_cons.mpr ⟨?_,ih tail⟩
    intro block member
    obtain ⟨f,inside,rfl⟩ := mem_map.mp member
    have apart : Before e f := between e (by simp) f inside
    have positive := (order.valid e (by simp)).positive
    exact lt_of_lt_of_le (Nat.lt_add_of_pos_right positive) apart

theorem binsearch_spec {leaf : List Extent} (order : InOrder leaf) (nonempty : leaf ≠ []) (block : Nat) :
    ∃ left ex right, leaf = left ++ ex :: right ∧ mlfsExtBinsearch leaf block = some left.length ∧
      (left = [] ∨ ex.eeBlock ≤ block) ∧ ∀ e ∈ right, block < e.eeBlock := by
  obtain ⟨left,key,right,cut,place,low,high⟩ := search_keys order.starts (by simpa using nonempty) block
  obtain ⟨l,rest,rfl,rfl,behind⟩ := map_eq_append_iff.mp cut
  obtain ⟨ex,r,rfl,rfl,rfl⟩ := map_eq_cons_iff.mp behind
  refine ⟨l,ex,r,rfl,?_,by simpa using low,fun e member => high _ (mem_map_of_mem member)⟩
  rw [mlfsExtBinsearch,if_neg nonempty]
  simpa using place

def Exact (ls : List (Nat × List Extent)) : Prop := ∀ l ∈ ls,l.2.head?.map (·.eeBlock) = some l.1

theorem Exact.cons {leaf : List Extent} (exact : leaf.head?.map (·.eeBlock) = some key) :
    ∃ ex rest, leaf = ex :: rest ∧ ex.eeBlock = key := by
  cases leaf with
  | nil => cases exact
  | cons ex rest => exact ⟨ex,rest,rfl,by simpa using exact⟩

theorem Exact.append {left right : List (Nat × List Extent)} :
    Exact (left ++ right) ↔ Exact left ∧ Exact right := by
  simp only [Exact,forall_mem_append]

theorem Exact.keys_below {ls : List (Nat × List Extent)} (exact : Exact ls) (order : InOrder (ls.flatMap Prod.snd))
    {bound : Nat} (above : ∀ l ∈ ls,bound < l.1) : ∀ e ∈ ls.flatMap Prod.snd,bound < e.eeBlock := by
  intro e member
  obtain ⟨l,inside,at_⟩ := mem_flatMap.mp member
  obtain ⟨ex,rest,shape,start⟩ := Exact.cons (exact l inside)
  have first := above l inside
  rw [shape] at at_
  rcases mem_cons.mp at_ with rfl | later
  · rw [start]
    exact first
  · obtain ⟨l₁,l₂,rfl⟩ := append_of_mem inside
    rw [flatMap_append,flatMap_cons,shape] at order
    have leaf : InOrder (ex :: rest) := order.parts.2.1.parts.1
    have behind : ex.eeBlock < e.eeBlock :=
      (pairwise_cons.mp leaf.starts).1 e.eeBlock (mem_map_of_mem later)
    rw [start] at behind
    exact first.trans behind

theorem Exact.keysSorted {ls : List (Nat × List Extent)} (exact : Exact ls)
    (order : InOrder (ls.flatMap Prod.snd)) : KeysSorted ls := by
  induction ls with
  | nil => exact .nil
  | cons l rest ih =>
    rw [flatMap_cons] at order
    obtain ⟨head,tail,between⟩ := order.parts
    have others : Exact rest := fun l' member => exact l' (mem_cons_of_mem l member)
    refine pairwise_cons.mpr ⟨?_,ih others tail⟩
    intro key member
    obtain ⟨l',inside,rfl⟩ := mem_map.mp member
    obtain ⟨ex,more,shape,start⟩ := Exact.cons (exact l (by simp))
    obtain ⟨ex',more',shape',start'⟩ := Exact.cons (others l' inside)
    have apart : Before ex ex' :=
      between ex (by simp [shape]) ex' (mem_flatMap.mpr ⟨l',inside,by simp [shape']⟩)
    have positive := (head.valid ex (by simp [shape])).positive
    rw [←start,←start']
    exact lt_of_lt_of_le (Nat.lt_add_of_pos_right positive) apart

structure TreeOk (root : ExtRoot) : Prop where
  shape : root = ⟨0,leafNode []⟩ ∨
    ∃ key,NodeOk mlfsExtSpaceRoot key root.node ∧ Exact (leaves key root.node)
  order : InOrder (extents root.node)

-- Where a lookup in a file that has extents ends: at `ex`, the last extent that starts at or before
-- the block, or the first one if all start behind it.
structure Located (root : ExtRoot) (block : Nat) (c : Cursor root.ehDepth) (key : Nat) (left : List Extent)
    (ex : Extent) (right : List Extent) : Prop extends Found root block c key where
  before : Exact (leavesBefore c.path)
  after : Exact (leavesAfter c.path)
  start : c.leaf.head?.map (·.eeBlock) = some key
  leaf : c.leaf = left ++ ex :: right
  place : c.pExt = some left.length
  low : extentsBefore c.path ++ left = [] ∨ ex.eeBlock ≤ block
  high : ∀ e ∈ right ++ extentsAfter c.path,block < e.eeBlock

theorem Found.located {c : Cursor root.ehDepth} (found : Found root block c key)
    (pExt : c.pExt = mlfsExtBinsearch c.leaf block)
    (exact : Exact (leavesBefore c.path ++ (key,c.leaf) :: leavesAfter c.path)) (order : InOrder (extents root.node)) :
    ∃ left ex right, Located root block c key left ex right := by
  obtain ⟨before,rest⟩ := Exact.append.mp exact
  have start : c.leaf.head?.map (·.eeBlock) = some key := rest (key,c.leaf) (by simp)
  have after : Exact (leavesAfter c.path) := fun l member => rest l (by simp [member])
  rw [←found.on,extents_plug] at order
  have inside : InOrder c.leaf := order.parts.1.parts.2.1
  obtain ⟨first,more,shape,head⟩ := Exact.cons start
  obtain ⟨left,ex,right,leaf,place,low,high⟩ := binsearch_spec inside (by simp [shape]) block
  refine ⟨left,ex,right,{found with before,after,start,leaf,place := pExt.trans place,low := ?_,high := ?_}⟩
  · rcases low with rfl | low
    · rw [leaf] at start
      have same : ex.eeBlock = key := by simpa using start
      rcases found.cut.early with none | small
      · exact Or.inl (by rw [←leavesBefore_extents,none]; rfl)
      · exact Or.inr (by rw [same]; exact small)
    · exact Or.inr low
  · intro e member
    rcases mem_append.mp member with near | far
    · exact high e near
    · rw [←leavesAfter_extents] at far order
      exact after.keys_below order.parts.2.1 found.cut.late e far

theorem TreeOk.located (ok : TreeOk root) (nonempty : extents root.node ≠ []) (block : Nat) :
    ∃ c key left ex right, mlfsFindExtent root block = some c ∧ Located root block c key left ex right := by
  rcases ok.shape with rfl | ⟨key,node,exact⟩
  · exact absurd rfl nonempty
  · have order := ok.order
    rw [←leaves_extents key] at order
    obtain ⟨c,k,walk,found,pExt,whole⟩ := find_found root node (exact.keysSorted order) block
    rw [whole] at exact
    obtain ⟨left,ex,right,located⟩ := found.located pExt exact ok.order
    exact ⟨c,k,left,ex,right,walk,located⟩

theorem nextLeafBlock_eq (ok : PathOk path key) :
    mlfsExtNextLeafBlock path = ((leavesAfter path).head?.map Prod.fst).getD extMaxBlocks := by
  induction path generalizing key with
  | root => rfl
  | under left pIdx right up ih =>
    obtain ⟨_,_,siblings,_,above⟩ := ok
    cases right with
    | nil => exact ih above
    | cons next rest =>
      obtain ⟨leaf,more,first⟩ := (siblings next (by simp)).first_leaf
      rw [leavesAfter,entryLeaves_cons,first]
      rfl

theorem Located.next {c : Cursor root.ehDepth}
    {ex : Extent} (at_ : Located root block c key left ex right) :
    mlfsExtNextAllocatedBlock c = ((right ++ extentsAfter c.path).head?.map (·.eeBlock)).getD extMaxBlocks := by
  have next : c.leaf[left.length + 1]? = right.head? := by
    rw [at_.leaf,getElem?_append_right (by omega)]
    cases right <;> simp
  rw [mlfsExtNextAllocatedBlock,at_.place,Option.bind_some,next]
  cases right with
  | cons e rest => rfl
  | nil =>
    have after := at_.after
    rw [nil_append,←leavesAfter_extents]
    simp only [head?_nil]
    rw [nextLeafBlock_eq at_.path]
    cases shape : leavesAfter c.path with
    | nil => rfl
    | cons l rest =>
      rw [shape] at after
      obtain ⟨e,more,first,start⟩ := Exact.cons (after l (by simp))
      simp [first,start]

end Assise.Extents
