import Mathlib.Algebra.Ring.Nat
import Mathlib.Data.List.Nodup

-- `try_migrate_blocks` at the level of the LRU lists, with two devices (`USE_SSD` alone, so that nothing is migrated
-- further down).
namespace Assise.MigrationLists
open List

def rootino : Nat := 1
def minMigrateEntry : Nat := 1024

structure LruNode where
  addr : Nat
  inum : Nat
  lblock : Nat
deriving DecidableEq, Repr

-- The lists have the newest node first. `mapped` is whether the tree of an inode on `from_dev` has a block, `room` how
-- many more blocks `to_dev` can take.
structure Lists where
  fromLru : List LruNode
  toLru : List LruNode
  mapped : Nat → Nat → Bool
  room : Nat

def Lists.has (s : Lists) (node : LruNode) : Bool := s.mapped node.inum node.lblock

structure Usage where
  usedBlocks : Nat
  datablocks : Nat
  migrateThreshold : Nat
  nrBlocks : Nat
  force : Bool
deriving DecidableEq, Repr

def nEntries (u : Usage) : Option Nat :=
  let nrBlocks := if u.nrBlocks = 0 then minMigrateEntry else u.nrBlocks
  let limit := u.migrateThreshold * u.datablocks / 100
  if u.force then some nrBlocks
  else if limit < u.usedBlocks then some (max ((u.usedBlocks - limit) % 2 ^ 32) nrBlocks)
  else none

-- One pass over the list from the oldest node: the isolated nodes, those left, and `i`. Nodes of the root directory are
-- taken from the list as well.
def isolate (n : Nat) : Nat → List LruNode → List LruNode × List LruNode × Nat
  | i,[] => ([],[],i)
  | i,node :: newer =>
    if node.inum = rootino then isolate n i newer
    else if n ≤ i + 1 then ([node],newer,i + 1)
    else
      let (isolated,left,i) := isolate n (i + 1) newer
      (node :: isolated,left,i)

-- `migrate_blocks`: the tree is asked for all blocks before the first of them is truncated. What it does not have goes to
-- `fail_head`; the rest is counted. Without room `mlfs_ext_alloc_blocks` calls `try_migrate_blocks` again, which has no room
-- either: such calls take what the list has left, and the last one waits for ever on the empty list, unless the third
-- attempt of one panics.
def migrateBlocks (s : Lists) (list : List LruNode) : Option (Lists × Nat) :=
  let success := list.filter s.has
  if s.room < success.length then none
  else some ({ s with
      toLru := success ++ s.toLru
      mapped := fun inum lblock => s.mapped inum lblock && !success.any fun node => node.inum = inum ∧ node.lblock = lblock
      room := s.room - success.length },
    success.length)

-- `migrate_list.fail_head` is freed at the end, so its nodes are in no list from here on.
def migrateLoop (n : Nat) : Nat → Nat → Nat → Lists → Option Lists
  | 0,_,_,_ => none
  | fuel + 1,ret,i,s =>
    if ret < n then
      let (isolated,left,i) := isolate n i s.fromLru.reverse
      (migrateBlocks { s with fromLru := left.reverse } isolated).bind fun (s,migrated) => migrateLoop n fuel (ret + migrated) i s
    else some s

def tryMigrateBlocks (fuel : Nat) (u : Usage) (s : Lists) : Option Lists :=
  match nEntries u with
  | none => some s
  | some n => migrateLoop n fuel 0 0 s

structure Keeps (s s' : Lists) : Prop where
  lower : ∀ node ∈ s.toLru, node ∈ s'.toLru
  upper : ∀ node ∈ s.fromLru, node ∈ s'.fromLru ∨ node ∈ s'.toLru ∧ s.has node = true ∧ s'.has node = false

-- The list has as many nodes as are asked for, the oldest of them are none of the root directory and have their blocks,
-- and the target has room for them.
def Ready (n : Nat) (s : Lists) : Prop :=
  n ≤ s.fromLru.length ∧ n ≤ s.room ∧ ∀ node ∈ s.fromLru.reverse.take n, node.inum ≠ rootino ∧ s.has node = true

def Migratable (u : Usage) (s : Lists) : Prop := ∀ n ∈ nEntries u, Ready n s

variable {n : Nat} {s s' : Lists} {u : Usage} {node : LruNode}

theorem nEntries_positive (asked : nEntries u = some n) : 0 < n := by
  unfold nEntries at asked
  have some : 0 < if u.nrBlocks = 0 then minMigrateEntry else u.nrBlocks := by
    split
    · decide
    · omega
  dsimp only at asked
  split at asked
  · cases asked
    exact some
  · split at asked
    · cases asked
      exact Nat.lt_of_lt_of_le some (Nat.le_max_right ..)
    · cases asked

theorem isolate_split (n i : Nat) (list : List LruNode) :
    ∃ visited, list = visited ++ (isolate n i list).2.1 ∧
      (isolate n i list).1 = visited.filter (fun node => decide (node.inum ≠ rootino)) ∧
      (i < n → i + (isolate n i list).1.length ≤ n ∧ (i + (isolate n i list).1.length = n ∨ (isolate n i list).2.1 = [])) := by
  induction list generalizing i with
  | nil => exact ⟨[],rfl,rfl,fun less => ⟨Nat.le_of_lt less,Or.inr rfl⟩⟩
  | cons node newer ih =>
    unfold isolate
    by_cases root : node.inum = rootino
    · rw [if_pos root]
      obtain ⟨visited,split,kept,bound⟩ := ih i
      refine ⟨node :: visited,congrArg (node :: ·) split,?_,bound⟩
      rw [filter_cons_of_neg (by simpa using root)]
      exact kept
    · rw [if_neg root]
      by_cases last : n ≤ i + 1
      · rw [if_pos last]
        refine ⟨[node],rfl,?_,fun less => ⟨less,Or.inl (Nat.le_antisymm less last)⟩⟩
        rw [filter_cons_of_pos (by simpa using root)]
        rfl
      · rw [if_neg last]
        obtain ⟨visited,split,kept,bound⟩ := ih (i + 1)
        obtain ⟨bound,ends⟩ := bound (Nat.lt_of_not_le last)
        dsimp only
        refine ⟨node :: visited,congrArg (node :: ·) split,?_,fun _ => ?_⟩
        · rw [filter_cons_of_pos (by simpa using root),kept]
        · rw [length_cons]
          exact ⟨by omega,ends.imp_left fun full => by omega⟩

-- The nodes that a pass moves, and what it leaves.
def moves (n i : Nat) (s : Lists) : List LruNode := (isolate n i s.fromLru.reverse).1.filter s.has

def pass (n i : Nat) (s : Lists) : Lists where
  fromLru := (isolate n i s.fromLru.reverse).2.1.reverse
  toLru := moves n i s ++ s.toLru
  mapped := fun inum lblock => s.mapped inum lblock && !(moves n i s).any fun node => node.inum = inum ∧ node.lblock = lblock
  room := s.room - (moves n i s).length

variable {fuel ret i : Nat}

theorem migrateLoop_succ (more : ret < n) : migrateLoop n (fuel + 1) ret i s = if s.room < (moves n i s).length
    then none else migrateLoop n fuel (ret + (moves n i s).length) (isolate n i s.fromLru.reverse).2.2 (pass n i s) := by
  rw [migrateLoop,if_pos more]
  dsimp only [migrateBlocks]
  by_cases full : s.room < (moves n i s).length
  · rw [if_pos full]
    exact congrArg (Option.bind · _) (if_pos full)
  · rw [if_neg full]
    exact congrArg (Option.bind · _) (if_neg full)

theorem migrateLoop_done (enough : ¬ret < n) : migrateLoop n (fuel + 1) ret i s = some s := if_neg enough

theorem migrateLoop_mem (done : migrateLoop n fuel ret i s = some s')
    (member : node ∈ s'.fromLru ∨ node ∈ s'.toLru) : node ∈ s.fromLru ∨ node ∈ s.toLru := by
  induction fuel generalizing ret i s with
  | zero => cases done
  | succ fuel ih =>
    by_cases more : ret < n
    · rw [migrateLoop_succ more] at done
      obtain ⟨_,done⟩ := Option.ite_none_left_eq_some.mp done
      obtain ⟨visited,split,kept,-⟩ := isolate_split n i s.fromLru.reverse
      rw [← mem_reverse,split]
      rcases ih done with left | there
      · exact Or.inl (mem_append_right _ (mem_reverse.mp left))
      · rcases mem_append.mp there with moved | old
        · have isolated := (mem_filter.mp moved).1
          rw [kept] at isolated
          exact Or.inl (mem_append_left _ (mem_filter.mp isolated).1)
        · exact Or.inr old
    · rw [migrateLoop_done more] at done
      cases done
      exact member

theorem migrateLoop_starved (few : ret < n) (out : s.fromLru = []) : migrateLoop n fuel ret i s = none := by
  induction fuel generalizing i s with
  | zero => rfl
  | succ fuel ih =>
    have blank : (moves n i s).length = 0 := by simp [moves,out,isolate]
    rw [migrateLoop_succ few,blank,if_neg (Nat.not_lt_zero _),Nat.add_zero]
    exact ih (by simp [pass,out,isolate])

theorem isolate_take {list : List LruNode} {i : Nat} (less : i < n) (enough : n - i ≤ list.length)
    (others : ∀ node ∈ list.take (n - i), node.inum ≠ rootino) :
    isolate n i list = (list.take (n - i),list.drop (n - i),n) := by
  induction list generalizing i with
  | nil =>
    rw [length_nil] at enough
    omega
  | cons node newer ih =>
    obtain ⟨m,rest⟩ : ∃ m, n - i = m + 1 := ⟨n - i - 1,by omega⟩
    rw [rest,take_succ_cons] at others
    unfold isolate
    rw [rest,take_succ_cons,drop_succ_cons,if_neg (others node mem_cons_self)]
    split
    · obtain ⟨one,last⟩ : m = 0 ∧ n = i + 1 := by omega
      rw [one,take_zero,drop_zero,← last]
    · have next : n - (i + 1) = m := by omega
      rw [length_cons,rest] at enough
      rw [ih (by omega) (by omega) (by rw [next]; exact fun node member => others node (mem_cons_of_mem _ member)),next]

theorem migrateLoop_keeps (positive : 0 < n) (ready : Ready n s) : ∃ s', migrateLoop n 2 0 0 s = some s' ∧ Keeps s s' := by
  obtain ⟨enough,room,good⟩ := ready
  have enough : n - 0 ≤ s.fromLru.reverse.length := by rwa [length_reverse]
  have whole := isolate_take positive enough fun node member => (good node member).1
  have all : (s.fromLru.reverse.take n).filter s.has = s.fromLru.reverse.take n :=
    filter_eq_self.mpr fun node member => (good node member).2
  have moved : moves n 0 s = s.fromLru.reverse.take n := by rw [moves,whole]; exact all
  have counted : (moves n 0 s).length = n := by
    rw [moved]
    exact length_take_of_le enough
  refine ⟨pass n 0 s,?_,fun node member => mem_append_right _ member,fun node member => ?_⟩
  · rw [migrateLoop_succ positive,counted,if_neg (Nat.not_lt.mpr room),Nat.zero_add,migrateLoop_done (Nat.lt_irrefl n)]
  · rw [← mem_reverse,← take_append_drop n s.fromLru.reverse] at member
    rcases mem_append.mp member with taken | left
    · rw [← moved] at taken
      refine Or.inr ⟨mem_append_left _ taken,(mem_filter.mp taken).2,?_⟩
      change (s.has node && !(moves n 0 s).any _) = false
      rw [any_eq_true.mpr ⟨node,taken,decide_eq_true ⟨rfl,rfl⟩⟩,Bool.not_true,Bool.and_false]
    · refine Or.inl (mem_reverse.mpr ?_)
      rw [whole]
      exact left

theorem migratable_of_keeps (distinct : (s.toLru ++ s.fromLru).Nodup) (positive : 0 < n)
    (done : migrateLoop n fuel 0 0 s = some s') (keeps : Keeps s s') : Ready n s := by
  obtain ⟨visited,split,kept,bound⟩ := isolate_split n 0 s.fromLru.reverse
  obtain ⟨bound,ends⟩ := bound positive
  obtain ⟨-,once,apart⟩ := nodup_append.mp distinct
  rw [← nodup_reverse,split] at once
  have divided := (nodup_append.mp once).2.2
  cases fuel with
  | zero => cases done
  | succ fuel =>
    rw [migrateLoop_succ positive] at done
    obtain ⟨room,done⟩ := Option.ite_none_left_eq_some.mp done
    have good : ∀ node ∈ visited, node.inum ≠ rootino ∧ s.has node = true := fun node member => by
      have here : node ∈ s.fromLru := mem_reverse.mp (split ▸ mem_append_left _ member)
      rcases migrateLoop_mem done ((keeps.upper node here).imp_right And.left) with left | there
      · exact absurd rfl (divided node member node (mem_reverse.mp left))
      · rcases mem_append.mp there with moved | old
        · obtain ⟨isolated,has⟩ := mem_filter.mp moved
          rw [kept] at isolated
          exact ⟨of_decide_eq_true (mem_filter.mp isolated).2,has⟩
        · exact absurd rfl (apart node old node here)
    rw [filter_eq_self.mpr fun node member => decide_eq_true (good node member).1] at kept
    have counted : (moves n 0 s).length = visited.length := by
      rw [moves,kept,filter_eq_self.mpr fun node member => (good node member).2]
    rw [kept,Nat.zero_add] at bound ends
    have full : visited.length = n := ends.elim id fun out => by
      by_contra short
      rw [migrateLoop_starved (by omega) (by rw [← reverse_nil,← out]; rfl)] at done
      cases done
    refine ⟨?_,by omega,fun node member => good node ?_⟩
    · rw [← length_reverse,split,length_append,full]
      exact Nat.le_add_right ..
    · rw [split,take_left' full] at member
      exact member

-- 9500 of 10000 blocks are used, 500 more than the threshold of the first device allows.
def crowded : Usage := ⟨9500,10000,90,0,false⟩

def lruOf (fromLru : List LruNode) (room : Nat) : Lists := { fromLru := fromLru,toLru := [],mapped := fun _ _ => true,room := room }

def nodesOf (n : Nat) : List LruNode := (range n).map fun k => ⟨k + 2,5,k⟩

theorem nodesOf_distinct (n room : Nat) : ((lruOf (nodesOf n) room).toLru ++ (lruOf (nodesOf n) room).fromLru).Nodup :=
  nodup_range.map fun _ _ same => (LruNode.mk.inj same).2.2

theorem nodesOf_ready (n : Nat) : Ready n (lruOf (nodesOf n) n) := by
  refine ⟨by simp [lruOf,nodesOf],le_rfl,fun node member => ⟨?_,rfl⟩⟩
  obtain ⟨_,_,rfl⟩ := mem_map.mp (mem_reverse.mp (mem_of_mem_take member))
  change 5 ≠ 1
  decide

theorem crowded_loop (fuel : Nat) (s : Lists) : tryMigrateBlocks fuel crowded s = migrateLoop 1024 fuel 0 0 s := rfl

end Assise.MigrationLists
