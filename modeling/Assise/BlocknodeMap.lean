import Assise.AllocatorRuns

-- Recovery: the free lists are built again from the block bitmap, partition by partition.
namespace Assise.FreeTree

open List

open Balloc (RangeNode)
open Bitmap (findNextZeroBit findNextBit findNextZeroBit_spec findNextZeroBit_le)
open Lib.SearchTree Lib.Runs

def sharedPartition : Nat := 65536

def mlfsGetFreeList (s : Allocator) (cpu : Nat) : FreeList := (s.freeLists[cpu]?).getD s.sharedFreeList

def putFreeList (s : Allocator) (cpu : Nat) (fl : FreeList) : Allocator :=
  if cpu < s.freeLists.length then {s with freeLists := s.freeLists.set cpu fl} else {s with sharedFreeList := fl}

def linkPlace (tree : NodeTree RangeNode) (rangeLow : Nat) : Nat :=
  match mlfsFindRangeNode tree rangeLow with
  | none => 0
  | some (i,curr) => if mlfsRbtreeCompareRangenode rangeLow curr = .gt then i + 1 else i

structure Recovery where
  bitmap : Nat → Bool
  bsize : Nat
  scale : Nat
  balance : RangeNode → NodeTree RangeNode → NodeTree RangeNode

def mlfsInsertBlocknodeMap (r : Recovery) (s : Allocator) (id low high : Nat) : Allocator :=
  let fl := mlfsGetFreeList s id
  match mlfsInsertRangeNode fl.blockFreeTree ⟨low,high⟩ with
  | none => s
  | some tree =>
    let place := linkPlace fl.blockFreeTree low
    putFreeList s id
      { fl with
        blockFreeTree := r.balance ⟨low,high⟩ tree
        firstNode := if fl.firstNode = none then some place else afterInsert place fl.firstNode
        numBlocknode := fl.numBlocknode + 1
        numFreeBlocks := fl.numFreeBlocks + (high - low + 1) }

structure Walk where
  sb : Allocator
  id : Nat
  start : Nat
  stop : Nat
  done : Bool

def Walk.enter (sb : Allocator) (id : Nat) : Walk :=
  ⟨sb,id,(mlfsGetFreeList sb id).blockStart,(mlfsGetFreeList sb id).blockEnd + 1,false⟩

def Walk.nextList (w : Walk) : Walk :=
  Walk.enter w.sb (if w.id = w.sb.freeLists.length - 1 then sharedPartition else w.id + 1)

def pass (r : Recovery) (w : Walk) : Walk :=
  let next := findNextZeroBit r.bitmap w.stop w.start
  if next = r.bsize then {w with done := true}
  else if next = w.stop then w.nextList
  else
    let low := next
    let next := findNextBit r.bitmap w.stop next
    let w := {w with sb := mlfsInsertBlocknodeMap r w.sb w.id (low <<< r.scale) ((next <<< r.scale) - 1), start := next}
    if next = r.bsize then {w with done := true}
    else if next = w.stop then w.nextList
    else w

def mlfsBuildBlocknodeMap (r : Recovery) (fuel : Nat) (sb : Allocator) : Option Allocator :=
  (loop Walk.done (fun w => some (pass r w)) fuel (Walk.enter sb 0)).map Walk.sb

structure ZeroRuns (bits : Nat → Bool) (lo hi : Nat) (nodes : List RangeNode) : Prop where
  inside : ∀ n ∈ nodes, lo ≤ n.rangeLow ∧ n.rangeLow ≤ n.rangeHigh ∧ n.rangeHigh < hi
  zero : ∀ n ∈ nodes, ∀ b, n.rangeLow ≤ b → b ≤ n.rangeHigh → bits b = false
  left : ∀ n ∈ nodes, n.rangeLow = lo ∨ bits (n.rangeLow - 1) = true
  right : ∀ n ∈ nodes, n.rangeHigh + 1 = hi ∨ bits (n.rangeHigh + 1) = true
  apart : nodes.Pairwise fun a b => a.rangeHigh < b.rangeLow
  whole : ∀ b, lo ≤ b → b < hi → bits b = false → ∃ n ∈ nodes, n.rangeLow ≤ b ∧ b ≤ n.rangeHigh

section Runs

variable {bits : Nat → Bool} {lo k m next : Nat} {nodes : List RangeNode}

theorem zeroRuns_empty (none_ : k ≤ lo) : ZeroRuns bits lo k [] where
  inside := nofun
  zero := nofun
  left := nofun
  right := nofun
  apart := .nil
  whole := by
    intro b above below
    omega

theorem ZeroRuns.skip (runs : ZeroRuns bits lo k nodes) (further : k ≤ m) (set : ∀ b, k ≤ b → b < m → bits b = true) :
    ZeroRuns bits lo m nodes := by
  refine ⟨?_,runs.zero,runs.left,?_,runs.apart,?_⟩
  · intro n member
    have bounds := runs.inside n member
    omega
  · intro n member
    rcases runs.right n member with ends | ends
    · rcases Nat.eq_or_lt_of_le further with rfl | more
      · exact Or.inl ends
      · exact Or.inr (by rw [ends]; exact set k (le_refl k) more)
    · exact Or.inr ends
  · intro b above below zero
    by_cases early : b < k
    · exact runs.whole b above early zero
    · rw [set b (by omega) below] at zero
      cases zero

theorem ZeroRuns.add (runs : ZeroRuns bits lo k nodes) (fresh : k = lo ∨ bits k = true) (from_ : lo ≤ k) (further : k ≤ m)
    (some_ : m < next) (set : ∀ b, k ≤ b → b < m → bits b = true) (zero : ∀ b, m ≤ b → b < next → bits b = false) :
    ZeroRuns bits lo next (nodes ++ [⟨m,next - 1⟩]) := by
  have skipped := runs.skip further set
  -- The bit before the new run: it was passed over, or the last run ended at it.
  have border : m = lo ∨ k < m := by
    rcases Nat.eq_or_lt_of_le further with rfl | more
    · rcases fresh with start | taken
      · exact Or.inl start
      · rw [zero k (le_refl k) some_] at taken
        cases taken
    · exact Or.inr more
  have earlier : ∀ n ∈ nodes, n.rangeHigh + 1 < m := by
    intro n member
    have bounds := runs.inside n member
    rcases border with rfl | more <;> omega
  have both {P : RangeNode → Prop} (old : ∀ n ∈ nodes, P n) (new : P ⟨m,next - 1⟩) : ∀ n ∈ nodes ++ [⟨m,next - 1⟩], P n :=
    forall_mem_append.mpr ⟨old,forall_mem_singleton.mpr new⟩
  refine ⟨both (fun n old => ?_) ?_,both runs.zero ?_,both runs.left ?_,both (fun n old => ?_) ?_,?_,?_⟩
  · have bounds := runs.inside n old
    omega
  · dsimp only
    omega
  · exact fun b low high => zero b low (by dsimp only at high; omega)
  · exact border.imp_right fun more => set (m - 1) (by omega) (by omega)
  · have before := earlier n old
    exact Or.inr ((skipped.right n old).resolve_left (by omega))
  · dsimp only
    omega
  · refine pairwise_append.mpr ⟨runs.apart,pairwise_singleton _ _,fun n old n' new => ?_⟩
    cases mem_singleton.mp new
    have before := earlier n old
    dsimp only
    omega
  · intro b above below clear
    by_cases early : b < m
    · obtain ⟨n,member,holds⟩ := skipped.whole b above early clear
      exact ⟨n,mem_append_left _ member,holds⟩
    · exact ⟨_,mem_append_right _ (mem_singleton.mpr rfl),by dsimp only; omega⟩

end Runs

structure Shows (bits : Nat → Bool) (lo hi : Nat) (fl : FreeList) : Prop where
  runs : ZeroRuns bits lo hi fl.nodes
  accurate : Accurate fl

theorem shows_of {bits : Nat → Bool} {lo hi : Nat} {fl : FreeList} {nodes : List RangeNode} (listed : fl.nodes = nodes)
    (runs : ZeroRuns bits lo hi nodes) (first : fl.firstNode = if nodes = [] then none else some 0)
    (count : fl.numBlocknode = nodes.length) (known : fl.numFreeBlocks = total nodes) : Shows bits lo hi fl := by
  subst listed
  exact ⟨runs,⟨⟨fun n member => (runs.inside n member).2.1,first,count⟩,known⟩⟩

theorem insert_last {tree : NodeTree RangeNode} {low : Nat} (high : Nat) (ordered : ∀ n ∈ tree.listing, n.rangeLow ≤ n.rangeHigh)
    (apart : tree.listing.Pairwise fun a b => a.rangeHigh < b.rangeLow) (above : ∀ n ∈ tree.listing, n.rangeHigh < low) :
    ∃ tree', mlfsInsertRangeNode tree ⟨low,high⟩ = some tree' ∧ tree'.listing = tree.listing ++ [⟨low,high⟩] ∧
      linkPlace tree low = tree.listing.length := by
  have all : endBefore tree low = tree.listing := takeWhile_eq_self_iff.mpr fun n member => decide_eq_true (above n member)
  have gap : ∀ n ∈ tree.listing, ¬ RangeNode.Holds n low := by
    intro n member inside
    have ends := above n member
    unfold RangeNode.Holds at inside
    omega
  have linked : (tree.insertAt ⟨low,high⟩ tree.listing.length).listing = tree.listing ++ [⟨low,high⟩] :=
    NodeTree.insertAt_split _ (append_nil _).symm
  obtain ⟨behind,whole,_,_,empty | ⟨_,next,rest,rfl,_⟩ | ⟨_,front,prev,shape,found⟩⟩ := findRangeNode_gap ⟨ordered,apart⟩ gap
  · subst empty
    exact ⟨_,rfl,rfl,rfl⟩
  · rw [all] at whole
    have lengths := congrArg List.length whole
    simp at lengths
  · rw [all] at shape
    have last : prev ∈ tree.listing := by simp [shape]
    have side : mlfsRbtreeCompareRangenode low prev = .gt := compare_gt (ordered prev last) (above prev last)
    have length : front.length + 1 = tree.listing.length := by simp [shape]
    refine ⟨_,by simp only [mlfsInsertRangeNode,found,side]; rw [length],linked,?_⟩
    simp only [linkPlace,found,side,if_true,length]

variable {r : Recovery} {i j : Nat}

theorem insertBlocknodeMap_shows {s : Allocator} {id lo k m next : Nat}
    (kept : ∀ n t, (r.balance n t).listing = t.listing) (shown : Shows r.bitmap lo k (mlfsGetFreeList s id))
    (fresh : k = lo ∨ r.bitmap k = true) (from_ : lo ≤ k) (further : k ≤ m) (some_ : m < next)
    (set : ∀ b, k ≤ b → b < m → r.bitmap b = true) (zero : ∀ b, m ≤ b → b < next → r.bitmap b = false) :
    ∃ fl, mlfsInsertBlocknodeMap r s id m (next - 1) = putFreeList s id fl ∧ Shows r.bitmap lo next fl ∧
      fl.blockStart = (mlfsGetFreeList s id).blockStart ∧ fl.blockEnd = (mlfsGetFreeList s id).blockEnd := by
  have runs := shown.runs.add fresh from_ further some_ set zero
  obtain ⟨⟨ordered,first,count⟩,known⟩ := shown.accurate
  have above : ∀ n ∈ (mlfsGetFreeList s id).nodes, n.rangeHigh < m := by
    intro n member
    have bounds := shown.runs.inside n member
    omega
  obtain ⟨tree,linked,listed,place⟩ := insert_last (next - 1) ordered shown.runs.apart above
  unfold mlfsInsertBlocknodeMap
  generalize mlfsGetFreeList s id = fl at *
  simp only [linked,place]
  refine ⟨_,rfl,?_,rfl,rfl⟩
  have nodes : (r.balance ⟨m,next - 1⟩ tree).listing = fl.nodes ++ [⟨m,next - 1⟩] := (kept _ _).trans listed
  have position : (if fl.firstNode = none then some fl.blockFreeTree.listing.length
      else afterInsert fl.blockFreeTree.listing.length fl.firstNode) = some 0 := by
    change fl.firstNode = if fl.blockFreeTree.listing = [] then none else some 0 at first
    by_cases empty : fl.blockFreeTree.listing = []
    · rw [first,if_pos empty,if_pos rfl,empty]
      rfl
    · have some_ := length_pos_iff.mpr empty
      rw [first,if_neg empty,if_neg nofun,afterInsert,Option.map_some,if_neg (by omega)]
  refine shows_of nodes runs (position.trans (if_neg (by simp)).symm) ?_ ?_
  · simp only [length_append,length_singleton,count]
  · simp only [total_append,total_cons,total_nil,RangeNode.size,known]
    omega

theorem getFreeList_shared {s : Allocator} (beyond : s.freeLists.length ≤ i) : mlfsGetFreeList s i = s.sharedFreeList := by
  rw [mlfsGetFreeList,getElem?_eq_none_iff.mpr beyond,Option.getD_none]

theorem getFreeList_put (s : Allocator) (i j : Nat) (fl : FreeList) :
    mlfsGetFreeList (putFreeList s i fl) j =
      if min j s.freeLists.length = min i s.freeLists.length then fl else mlfsGetFreeList s j := by
  unfold putFreeList
  by_cases inside : i < s.freeLists.length
  · rw [if_pos inside,min_eq_left (le_of_lt inside)]
    simp only [mlfsGetFreeList,getElem?_set]
    by_cases same : i = j
    · subst same
      rw [if_pos rfl,if_pos inside,if_pos (min_eq_left (le_of_lt inside)),Option.getD_some]
    · rw [if_neg same,if_neg (by omega)]
  · rw [if_neg inside,min_eq_right (Nat.le_of_not_lt inside)]
    by_cases within : j < s.freeLists.length
    · rw [if_neg (by omega)]
      simp only [mlfsGetFreeList,getElem?_eq_getElem within,Option.getD_some]
    · rw [if_pos (by omega)]
      exact getFreeList_shared (Nat.le_of_not_lt within)

theorem putFreeList_length (s : Allocator) (i : Nat) (fl : FreeList) :
    (putFreeList s i fl).freeLists.length = s.freeLists.length := by
  unfold putFreeList
  split <;> simp only [length_set]

def lowest (numBlocks nPartition j : Nat) : Nat := numBlocks / nPartition * j

def beyond (numBlocks nPartition j : Nat) : Nat :=
  if j < nPartition then numBlocks / nPartition * (j + 1) else numBlocks

section Intervals

variable (numBlocks : Nat) {nPartition : Nat}

variable {j : Nat}

theorem lowest_next (inside : j < nPartition) : lowest numBlocks nPartition (j + 1) = beyond numBlocks nPartition j := by
  rw [lowest,beyond,if_pos inside]

theorem lowest_mono (order : i ≤ j) : lowest numBlocks nPartition i ≤ lowest numBlocks nPartition j :=
  Nat.mul_le_mul_left _ order

theorem lowest_le (inside : j ≤ nPartition) : lowest numBlocks nPartition j ≤ numBlocks :=
  le_trans (lowest_mono numBlocks inside) (Nat.div_mul_le_self numBlocks nPartition)

theorem beyond_le (j : Nat) : beyond numBlocks nPartition j ≤ numBlocks := by
  by_cases inside : j < nPartition
  · rw [←lowest_next numBlocks inside]
    exact lowest_le numBlocks inside
  · rw [beyond,if_neg inside]

theorem beyond_le_lowest (order : i < j) (inside : j ≤ nPartition) :
    beyond numBlocks nPartition i ≤ lowest numBlocks nPartition j := by
  rw [←lowest_next numBlocks (by omega)]
  exact lowest_mono numBlocks order

theorem lowest_lt (enough : nPartition ≤ numBlocks) (inside : j < nPartition) :
    lowest numBlocks nPartition j < beyond numBlocks nPartition j := by
  have some_ : 0 < numBlocks / nPartition := Nat.div_pos enough (by omega)
  rw [←lowest_next numBlocks inside,lowest,lowest,Nat.mul_succ]
  omega

theorem lowest_le_beyond (inside : j ≤ nPartition) : lowest numBlocks nPartition j ≤ beyond numBlocks nPartition j := by
  by_cases last : j < nPartition
  · rw [←lowest_next numBlocks last]
    exact lowest_mono numBlocks (Nat.le_succ j)
  · rw [beyond,if_neg last]
    exact lowest_le numBlocks inside

end Intervals

structure Covered (bits : Nat → Bool) (numBlocks nPartition : Nat) (s : Allocator) (k : Nat) : Prop where
  lists : s.freeLists.length = nPartition
  bounds : ∀ j ≤ nPartition, lowest numBlocks nPartition j < beyond numBlocks nPartition j →
    (mlfsGetFreeList s j).blockStart = lowest numBlocks nPartition j ∧
      (mlfsGetFreeList s j).blockEnd + 1 = beyond numBlocks nPartition j
  shows : ∀ j ≤ nPartition, Shows bits (lowest numBlocks nPartition j)
    (max (lowest numBlocks nPartition j) (min (beyond numBlocks nPartition j) k)) (mlfsGetFreeList s j)

section Covered

variable {bits : Nat → Bool} {numBlocks nPartition : Nat} {s s' : Allocator} {k next p : Nat}

theorem Covered.advance (covered : Covered bits numBlocks nPartition s k) (inside : p ≤ nPartition)
    (from_ : lowest numBlocks nPartition p ≤ k) (further : k ≤ next) (limit : next ≤ beyond numBlocks nPartition p)
    (lists : s'.freeLists.length = nPartition)
    (others : ∀ j ≤ nPartition, j ≠ p → mlfsGetFreeList s' j = mlfsGetFreeList s j)
    (own : Shows bits (lowest numBlocks nPartition p) next (mlfsGetFreeList s' p))
    (start : (mlfsGetFreeList s' p).blockStart = (mlfsGetFreeList s p).blockStart)
    (stop : (mlfsGetFreeList s' p).blockEnd = (mlfsGetFreeList s p).blockEnd) :
    Covered bits numBlocks nPartition s' next := by
  refine ⟨lists,fun j valid => ?_,fun j valid => ?_⟩
  · by_cases same : j = p
    · subst same
      rw [start,stop]
      exact covered.bounds j valid
    · rw [others j valid same]
      exact covered.bounds j valid
  · by_cases same : j = p
    · subst same
      rw [min_eq_right limit,max_eq_right (le_trans from_ further)]
      exact own
    · rw [others j valid same]
      have shown := covered.shows j valid
      -- An interval before `p` is behind already, one after it has not been reached.
      have reach : max (lowest numBlocks nPartition j) (min (beyond numBlocks nPartition j) next) =
          max (lowest numBlocks nPartition j) (min (beyond numBlocks nPartition j) k) := by
        rcases Nat.lt_or_gt_of_ne same with before | after
        · have passed := beyond_le_lowest numBlocks before inside
          omega
        · have ahead := beyond_le_lowest numBlocks after valid
          omega
      rw [reach]
      exact shown

theorem Covered.skip (covered : Covered bits numBlocks nPartition s k) (inside : p ≤ nPartition)
    (from_ : lowest numBlocks nPartition p ≤ k) (further : k ≤ next) (limit : next ≤ beyond numBlocks nPartition p)
    (set : ∀ b, k ≤ b → b < next → bits b = true) : Covered bits numBlocks nPartition s next := by
  have shown := covered.shows p inside
  rw [min_eq_right (le_trans further limit),max_eq_right from_] at shown
  exact covered.advance inside from_ further limit covered.lists (fun _ _ _ => rfl)
    ⟨shown.runs.skip further set,shown.accurate⟩ rfl rfl

end Covered

structure Reached (bits : Nat → Bool) (numBlocks nPartition : Nat) (w : Walk) (p : Nat) : Prop where
  covered : Covered bits numBlocks nPartition w.sb w.start
  place : min w.id nPartition = p
  from_ : lowest numBlocks nPartition p ≤ w.start
  limit : w.start < w.stop
  stop : w.stop = beyond numBlocks nPartition p
  fresh : w.start = lowest numBlocks nPartition p ∨ bits w.start = true

def Addressable (numBlocks nPartition : Nat) : Prop := nPartition ≤ sharedPartition ∨ nPartition ∣ numBlocks

section Walk

variable {bits : Nat → Bool} {numBlocks nPartition : Nat} {s : Allocator} {w : Walk} {p : Nat}

theorem getFreeList_place (lists : s.freeLists.length = nPartition) (place : min i nPartition = p) :
    mlfsGetFreeList s i = mlfsGetFreeList s p := by
  by_cases inside : i < nPartition
  · rw [←place,min_eq_left (le_of_lt inside)]
  · rw [←place,min_eq_right (Nat.le_of_not_lt inside),getFreeList_shared (by omega),getFreeList_shared (by omega)]

theorem reached_at (covered : Covered bits numBlocks nPartition s (lowest numBlocks nPartition p)) (place : min i nPartition = p)
    (some_ : lowest numBlocks nPartition p < beyond numBlocks nPartition p) : Reached bits numBlocks nPartition (Walk.enter s i) p := by
  obtain ⟨start,stop⟩ := covered.bounds p (by omega) some_
  have same := getFreeList_place covered.lists place
  have begins : (Walk.enter s i).start = lowest numBlocks nPartition p := by rw [Walk.enter,same,start]
  have ends : (Walk.enter s i).stop = beyond numBlocks nPartition p := by rw [Walk.enter,same,stop]
  exact ⟨begins.symm ▸ covered,place,le_of_eq begins.symm,by rw [begins,ends]; exact some_,ends,Or.inl begins⟩

theorem reached_nextList (addressable : Addressable numBlocks nPartition) (enough : nPartition ≤ numBlocks) (place : min w.id nPartition = p)
    (covered : Covered bits numBlocks nPartition w.sb (beyond numBlocks nPartition p))
    (more : beyond numBlocks nPartition p ≠ numBlocks) :
    Reached bits numBlocks nPartition w.nextList (p + 1) := by
  have inside : p < nPartition := by
    refine Nat.lt_of_not_le fun outside => more ?_
    rw [beyond,if_neg (by omega)]
  have here : w.id = p := by omega
  have begins := lowest_next numBlocks inside
  have some_ : lowest numBlocks nPartition (p + 1) < beyond numBlocks nPartition (p + 1) := by
    by_cases last : p + 1 < nPartition
    · exact lowest_lt numBlocks enough last
    · have limit : lowest numBlocks nPartition (p + 1) ≤ numBlocks := lowest_le numBlocks (by omega)
      rw [beyond,if_neg last]
      omega
  refine reached_at (begins.symm ▸ covered) ?_ some_
  rw [covered.lists,here]
  by_cases last : p = nPartition - 1
  · rw [if_pos last]
    have few : nPartition ≤ sharedPartition := by
      rcases addressable with few | divides
      · exact few
      · refine absurd ?_ more
        rw [←begins,lowest,show p + 1 = nPartition by omega,Nat.div_mul_cancel divides]
    omega
  · rw [if_neg last]
    omega

theorem onward (addressable : Addressable numBlocks nPartition) (enough : nPartition ≤ numBlocks) (place : min w.id nPartition = p)
    (covered : Covered bits numBlocks nPartition w.sb (beyond numBlocks nPartition p))
    (more : beyond numBlocks nPartition p ≠ numBlocks) :
    beyond numBlocks nPartition p ≤ w.nextList.start ∧ ∃ p', Reached bits numBlocks nPartition w.nextList p' := by
  have next := reached_nextList addressable enough place covered more
  refine ⟨le_trans ?_ next.from_,p + 1,next⟩
  rw [lowest_next numBlocks (by have limit := next.place; omega)]

theorem Reached.insert {m next : Nat} (reached : Reached r.bitmap numBlocks nPartition w p)
    (kept : ∀ n t, (r.balance n t).listing = t.listing) (further : w.start ≤ m) (some_ : m < next) (limit : next ≤ w.stop)
    (set : ∀ b, w.start ≤ b → b < m → r.bitmap b = true) (zero : ∀ b, m ≤ b → b < next → r.bitmap b = false) :
    Covered r.bitmap numBlocks nPartition (mlfsInsertBlocknodeMap r w.sb w.id m (next - 1)) next := by
  obtain ⟨covered,place,from_,_,stop,fresh⟩ := reached
  have inside : p ≤ nPartition := by omega
  have shown := covered.shows p inside
  rw [min_eq_right (by omega),max_eq_right from_,←getFreeList_place covered.lists place] at shown
  obtain ⟨fl,inserted,shown',start,end_⟩ := insertBlocknodeMap_shows kept shown fresh from_ further some_ set zero
  have got : ∀ j ≤ nPartition, mlfsGetFreeList (putFreeList w.sb w.id fl) j = if j = p then fl else mlfsGetFreeList w.sb j := by
    intro j valid
    rw [getFreeList_put,covered.lists,place,min_eq_left valid]
  have own : mlfsGetFreeList (putFreeList w.sb w.id fl) p = fl := by rw [got p inside,if_pos rfl]
  rw [inserted]
  refine covered.advance inside from_ (by omega) (by omega) ((putFreeList_length _ _ _).trans covered.lists) ?_ ?_ ?_ ?_
  · intro j valid other
    rw [got j valid,if_neg other]
  · rw [own]
    exact shown'
  · rw [own,start,getFreeList_place covered.lists place]
  · rw [own,end_,getFreeList_place covered.lists place]

def Halfway (bits : Nat → Bool) (numBlocks nPartition : Nat) (w : Walk) : Prop :=
  w.done = true ∧ Covered bits numBlocks nPartition w.sb numBlocks ∨ w.done = false ∧ ∃ p, Reached bits numBlocks nPartition w p

theorem Reached.pass (reached : Reached r.bitmap numBlocks nPartition w p) (addressable : Addressable numBlocks nPartition)
    (enough : nPartition ≤ numBlocks) (kept : ∀ n t, (r.balance n t).listing = t.listing) (size : r.bsize = numBlocks)
    (scale : r.scale = 0) (running : w.done = false) :
    ((pass r w).done = true ∧ Covered r.bitmap numBlocks nPartition (pass r w).sb numBlocks) ∨
      (pass r w).done = false ∧ w.start < (pass r w).start ∧
        ∃ p', Reached r.bitmap numBlocks nPartition (pass r w) p' := by
  have limit := reached.limit
  have stop := reached.stop
  have inside : p ≤ nPartition := by have place := reached.place; omega
  have last : beyond numBlocks nPartition p ≤ numBlocks := beyond_le numBlocks p
  unfold FreeTree.pass
  obtain ⟨bound,set,zero⟩ := findNextZeroBit_spec r.bitmap limit
  generalize findNextZeroBit r.bitmap w.stop w.start = m at *
  simp only [size,scale,Nat.shiftLeft_zero]
  by_cases whole : m = numBlocks
  · rw [if_pos whole]
    exact Or.inl ⟨rfl,whole ▸ reached.covered.skip inside reached.from_ (by omega) (by omega) set⟩
  · rw [if_neg whole]
    by_cases ends : m = w.stop
    · rw [if_pos ends]
      obtain ⟨higher,reached'⟩ := onward addressable enough reached.place
        (stop ▸ ends ▸ reached.covered.skip inside reached.from_ (by omega) (by omega) set) (by omega)
      exact Or.inr ⟨rfl,by omega,reached'⟩
    · rw [if_neg ends]
      obtain ⟨further,clear⟩ := zero (by omega)
      have found := findNextZeroBit_spec (fun i => !r.bitmap i) (show m < w.stop by omega)
      change Bitmap.NextZero _ _ _ (findNextBit r.bitmap w.stop m) at found
      generalize findNextBit r.bitmap w.stop m = next at *
      obtain ⟨bound',zeros,taken⟩ := found
      have some_ : m < next := by
        refine Nat.lt_of_not_le fun back => ?_
        obtain ⟨above,one⟩ := taken (by omega)
        have same : next = m := by omega
        simp [same,clear] at one
      have covered := reached.insert kept further some_ bound' set fun b low high => by simpa using zeros b low high
      by_cases whole' : next = numBlocks
      · rw [if_pos whole']
        exact Or.inl ⟨rfl,whole' ▸ covered⟩
      · rw [if_neg whole']
        by_cases ends' : next = w.stop
        · rw [if_pos ends']
          obtain ⟨higher,reached'⟩ := onward (w:={w with sb := mlfsInsertBlocknodeMap r w.sb w.id m (next - 1), start := next})
            addressable enough reached.place (by rw [←stop,←ends']; exact covered) (by omega)
          exact Or.inr ⟨rfl,by omega,reached'⟩
        · rw [if_neg ends']
          obtain ⟨_,one⟩ := taken (by omega)
          have from_ := reached.from_
          exact Or.inr ⟨running,by dsimp only; omega,p,covered,reached.place,by dsimp only; omega,by dsimp only; omega,stop,
            Or.inr (by simpa using one)⟩

end Walk

theorem getFreeList_init {numBlocks reservedBlocks nPartition : Nat} (inside : j < nPartition) :
    mlfsGetFreeList (mlfsInitBlockmap false numBlocks reservedBlocks nPartition) j =
      initList false (numBlocks / nPartition) reservedBlocks j := by
  simp [mlfsGetFreeList,mlfsInitBlockmap,inside]

variable {numBlocks nPartition : Nat}

theorem mlfsInitBlockmap_covered (bits : Nat → Bool) (reservedBlocks : Nat) (some_ : 1 ≤ nPartition)
    (enough : nPartition ≤ numBlocks) :
    Covered bits numBlocks nPartition (mlfsInitBlockmap false numBlocks reservedBlocks nPartition) 0 := by
  have positive : 0 < numBlocks / nPartition := Nat.div_pos enough some_
  have lists : (mlfsInitBlockmap false numBlocks reservedBlocks nPartition).freeLists.length = nPartition := by
    simp [mlfsInitBlockmap]
  have untouched : ∀ {lo hi : Nat} {fl : FreeList}, fl.blockFreeTree = .nil → fl.firstNode = none → fl.numBlocknode = 0 →
      fl.numFreeBlocks = 0 → Shows bits lo (max lo (min hi 0)) fl := by
    intro lo hi fl tree first count known
    have listed : fl.nodes = [] := by rw [FreeList.nodes,tree]; rfl
    exact shows_of listed (zeroRuns_empty (by omega)) first count known
  refine ⟨lists,fun j valid some_ => ?_,fun j valid => ?_⟩
  · by_cases inside : j < nPartition
    · rw [getFreeList_init inside,beyond,if_pos inside,Nat.mul_succ]
      refine ⟨rfl,?_⟩
      change numBlocks / nPartition * j + numBlocks / nPartition - 1 + 1 = _
      omega
    · have last : j = nPartition := by omega
      subst last
      rw [getFreeList_shared (le_of_eq lists)]
      have whole : numBlocks / j * (j - 1) + numBlocks / j - 1 + 1 = numBlocks / j * j := by
        rw [←Nat.mul_succ,show (j - 1).succ = j by omega]
        have bound : 0 < numBlocks / j * j := Nat.mul_pos positive (by omega)
        omega
      rw [beyond,if_neg inside,lowest] at some_ ⊢
      simp only [mlfsInitBlockmap,whole,if_pos some_,true_and]
      omega
  · by_cases inside : j < nPartition
    · rw [getFreeList_init inside]
      exact untouched rfl rfl rfl rfl
    · rw [getFreeList_shared (by omega)]
      unfold mlfsInitBlockmap
      dsimp only
      split <;> exact untouched rfl rfl rfl rfl

theorem build_covered (reservedBlocks : Nat) (some_ : 1 ≤ nPartition)
    (enough : nPartition ≤ numBlocks) (addressable : Addressable numBlocks nPartition)
    (kept : ∀ n t, (r.balance n t).listing = t.listing) (size : r.bsize = numBlocks) (scale : r.scale = 0) :
    ∃ s, mlfsBuildBlocknodeMap r (numBlocks + 1) (mlfsInitBlockmap false numBlocks reservedBlocks nPartition) = some s ∧
      Covered r.bitmap numBlocks nPartition s numBlocks := by
  have start := reached_at (i:=0) (p:=0) (mlfsInitBlockmap_covered r.bitmap reservedBlocks some_ enough) (Nat.zero_min _)
    (lowest_lt numBlocks enough some_)
  have ends : ∀ w, Halfway r.bitmap numBlocks nPartition w → (if w.done then 0 else numBlocks + 1 - w.start) = 0 → w.done = true := by
    rintro w (⟨done,_⟩ | ⟨running,p,reached⟩) none_
    · exact done
    · have below := lt_of_lt_of_le (reached.stop ▸ reached.limit) (beyond_le numBlocks p)
      rw [running] at none_
      simp only [Bool.false_eq_true,if_false] at none_
      omega
  obtain ⟨w,ran,⟨_,covered⟩ | ⟨running,_⟩,done⟩ := loop_total (Halfway r.bitmap numBlocks nPartition)
    (fun w => if w.done then 0 else numBlocks + 1 - w.start) ends (fun w kept_ running _ => by
      rcases kept_ with ⟨done,_⟩ | ⟨_,p,reached⟩
      · rw [running] at done
        cases done
      · have below := lt_of_lt_of_le (reached.stop ▸ reached.limit) (beyond_le numBlocks p)
        refine ⟨_,rfl,?_⟩
        rw [running]
        rcases reached.pass addressable enough kept size scale running with ⟨done,covered⟩ | ⟨going,higher,reached'⟩
        · exact ⟨Or.inl ⟨done,covered⟩,by rw [done]; simp only [if_true,Bool.false_eq_true,if_false]; omega⟩
        · exact ⟨Or.inr ⟨going,reached'⟩,by rw [going]; simp only [Bool.false_eq_true,if_false]; omega⟩)
    (Or.inr ⟨rfl,0,start⟩) (Nat.sub_le _ _) (throughout_true Walk.done (fun w => some (FreeTree.pass r w)) (numBlocks + 1) _)
  · exact ⟨w.sb,by rw [mlfsBuildBlocknodeMap,ran,Option.map_some],covered⟩
  · rw [running] at done
    cases done

theorem insertBlocknodeMap_frame (r : Recovery) (s : Allocator) (id low high : Nat) :
    (mlfsInsertBlocknodeMap r s id low high).freeLists.length = s.freeLists.length ∧
      ∀ j, (mlfsGetFreeList (mlfsInsertBlocknodeMap r s id low high) j).blockEnd = (mlfsGetFreeList s j).blockEnd := by
  unfold mlfsInsertBlocknodeMap
  dsimp only
  split
  · exact ⟨rfl,fun _ => rfl⟩
  · refine ⟨putFreeList_length _ _ _,fun j => ?_⟩
    rw [getFreeList_put]
    split
    · rename_i same
      dsimp only
      rw [getFreeList_place rfl (i:=id) rfl,getFreeList_place rfl (i:=j) rfl,same]
    · rfl

structure Trapped (numBlocks nPartition : Nat) (w : Walk) : Prop where
  running : w.done = false
  lists : w.sb.freeLists.length = nPartition
  ends : ∀ j < nPartition, (mlfsGetFreeList w.sb j).blockEnd + 1 = lowest numBlocks nPartition (j + 1)
  inside : w.id < nPartition
  stop : w.stop = lowest numBlocks nPartition (w.id + 1)

section Trapped

variable {numBlocks nPartition : Nat} {w : Walk}

section
variable (trapped : Trapped numBlocks nPartition w)
include trapped

theorem Trapped.nextList (many : sharedPartition < nPartition) :
    Trapped numBlocks nPartition w.nextList := by
  have inside : (if w.id = w.sb.freeLists.length - 1 then sharedPartition else w.id + 1) < nPartition := by
    have here := trapped.inside
    rw [trapped.lists]
    split <;> omega
  exact ⟨rfl,trapped.lists,trapped.ends,inside,trapped.ends _ inside⟩

theorem Trapped.insert (r : Recovery) (low high start : Nat) :
    Trapped numBlocks nPartition {w with sb := mlfsInsertBlocknodeMap r w.sb w.id low high, start := start} := by
  obtain ⟨lists,ends⟩ := insertBlocknodeMap_frame r w.sb w.id low high
  refine ⟨trapped.running,lists.trans trapped.lists,fun j valid => ?_,trapped.inside,trapped.stop⟩
  dsimp only
  rw [ends]
  exact trapped.ends j valid

theorem Trapped.pass (many : sharedPartition < nPartition)
    (left : ¬ nPartition ∣ numBlocks) (size : r.bsize = numBlocks) : Trapped numBlocks nPartition (FreeTree.pass r w) := by
  have short : w.stop < numBlocks := by
    have limit : lowest numBlocks nPartition (w.id + 1) ≤ numBlocks / nPartition * nPartition := lowest_mono numBlocks trapped.inside
    have less : numBlocks / nPartition * nPartition ≠ numBlocks := fun whole => left ⟨_,by rw [mul_comm]; exact whole.symm⟩
    have most := Nat.div_mul_le_self numBlocks nPartition
    rw [trapped.stop]
    omega
  have zero := findNextZeroBit_le r.bitmap w.stop w.start
  unfold FreeTree.pass
  dsimp only
  rw [size,if_neg (by omega)]
  split
  · exact trapped.nextList many
  · have one : findNextBit r.bitmap w.stop (findNextZeroBit r.bitmap w.stop w.start) ≤ w.stop := findNextZeroBit_le _ _ _
    rw [if_neg (by omega)]
    have trapped' := trapped.insert r (findNextZeroBit r.bitmap w.stop w.start <<< r.scale)
      (findNextBit r.bitmap w.stop (findNextZeroBit r.bitmap w.stop w.start) <<< r.scale - 1)
      (findNextBit r.bitmap w.stop (findNextZeroBit r.bitmap w.stop w.start))
    split
    · exact trapped'.nextList many
    · exact trapped'

end

end Trapped

-- With more partitions than ids below the shared one and blocks left over, the walk comes back to list 65536 again
-- and again.
theorem build_never (reservedBlocks : Nat) (many : sharedPartition < nPartition)
    (left : ¬ nPartition ∣ numBlocks) (enough : nPartition ≤ numBlocks) (size : r.bsize = numBlocks) (fuel : Nat) :
    mlfsBuildBlocknodeMap r fuel (mlfsInitBlockmap false numBlocks reservedBlocks nPartition) = none := by
  obtain ⟨lists,bounds,_⟩ := mlfsInitBlockmap_covered r.bitmap reservedBlocks (Nat.one_le_of_lt many) enough
  have ends : ∀ j < nPartition, (mlfsGetFreeList (mlfsInitBlockmap false numBlocks reservedBlocks nPartition) j).blockEnd + 1 =
      lowest numBlocks nPartition (j + 1) := by
    intro j inside
    rw [lowest_next numBlocks inside]
    exact (bounds j (le_of_lt inside) (lowest_lt numBlocks enough inside)).2
  have start : Trapped numBlocks nPartition (Walk.enter (mlfsInitBlockmap false numBlocks reservedBlocks nPartition) 0) :=
    ⟨rfl,lists,ends,Nat.zero_lt_of_lt many,ends 0 (Nat.zero_lt_of_lt many)⟩
  rw [mlfsBuildBlocknodeMap,loop_never (Trapped numBlocks nPartition) (fun w trapped => trapped.running) ?_ start fuel,Option.map_none]
  intro w next trapped passed
  cases passed
  exact trapped.pass many left size

theorem rebuilt_from_bitmap_iff (bitmap : Nat → Bool) (balance : RangeNode → NodeTree RangeNode → NodeTree RangeNode)
    (kept : ∀ n t, (balance n t).listing = t.listing) (numBlocks reservedBlocks nPartition : Nat) (some_ : 1 ≤ nPartition)
    (enough : nPartition ≤ numBlocks) :
    (∃ fuel s, mlfsBuildBlocknodeMap ⟨bitmap,numBlocks,0,balance⟩ fuel (mlfsInitBlockmap false numBlocks reservedBlocks nPartition) = some s ∧
      s.freeLists.length = nPartition ∧ ∀ j ≤ nPartition,
        Shows bitmap (lowest numBlocks nPartition j) (beyond numBlocks nPartition j) (mlfsGetFreeList s j)) ↔
      Addressable numBlocks nPartition := by
  constructor
  · rintro ⟨fuel,s,built,_⟩
    by_cases divides : nPartition ∣ numBlocks
    · exact Or.inr divides
    · refine Or.inl (Nat.le_of_not_lt fun many => ?_)
      rw [build_never reservedBlocks many divides enough rfl fuel] at built
      cases built
  · intro addressable
    obtain ⟨s,built,covered⟩ := build_covered (r:=⟨bitmap,numBlocks,0,balance⟩) reservedBlocks some_ enough addressable kept rfl rfl
    refine ⟨numBlocks + 1,s,built,covered.lists,fun j valid => ?_⟩
    have shown := covered.shows j valid
    rwa [min_eq_left (beyond_le numBlocks j),max_eq_right (lowest_le_beyond numBlocks valid)] at shown

theorem rebuilt_from_bitmap_seven : ∃ fuel s,
    mlfsBuildBlocknodeMap ⟨fun i => decide (i ∈ [1,3,4]),7,0,fun _ t => t⟩ fuel (mlfsInitBlockmap false 7 0 2) = some s ∧
      s.freeLists.length = 2 ∧ ∀ j ≤ 2, Shows (fun i => decide (i ∈ [1,3,4])) (lowest 7 2 j) (beyond 7 2 j) (mlfsGetFreeList s j) :=
  (rebuilt_from_bitmap_iff (fun i => decide (i ∈ [1,3,4])) (fun _ t => t) (fun _ _ => rfl) 7 0 2 (by decide) (by decide)).mpr
    (Or.inl (by decide))

example : (mlfsBuildBlocknodeMap ⟨fun i => decide (i ∈ [1,3,4]),7,0,fun _ t => t⟩ 8 (mlfsInitBlockmap false 7 0 2)).map
    (fun s => (s.freeLists.map FreeList.nodes,s.sharedFreeList.nodes)) =
      some ([[⟨0,0⟩,⟨2,2⟩],[⟨5,5⟩]],[⟨6,6⟩]) := by
  decide

-- 65537 partitions of one block each and one block left over, all free: the walk does not end.
theorem recovery_never_ends : 65537 ≤ 65538 ∧ ∀ fuel,
    mlfsBuildBlocknodeMap ⟨fun _ => false,65538,0,fun _ t => t⟩ fuel (mlfsInitBlockmap false 65538 0 65537) = none :=
  ⟨by decide,fun fuel => build_never 0 (by decide) (by decide) (by decide) rfl fuel⟩

end Assise.FreeTree
