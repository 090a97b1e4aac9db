import Assise.ExtentsLedger
import Assise.Lib.Runs

-- Block ownership over all inodes of a device.
namespace Assise.Ownership

open Balloc Extents Lib.Spans Lib.Runs Multiset

structure FileSystem where
  sb : SuperBlock
  inodes : List ExtRoot

def FileSystem.dataBlocks (fs : FileSystem) : Multiset Nat :=
  (fs.inodes.map fun root => extentBlocks (extents root.node)).sum
def FileSystem.treeBlocks (fs : FileSystem) : Multiset Nat := (fs.inodes.map fun root => nodes root.node).sum
def FileSystem.referenced (fs : FileSystem) : Multiset Nat := fs.dataBlocks + fs.treeBlocks

def FileSystem.account (fs : FileSystem) : Account := ⟨fs.sb,fs.dataBlocks,fs.treeBlocks⟩

-- `ALLOC_SIZE` and the largest write both stay within one initialised extent.
structure Create where
  inum : Nat
  mLblk : Nat
  mLen : Nat
  short : mLen ≤ extInitMaxLen

inductive Action where
  | create (request : Create)
  | truncate (inum start stop : Nat)

def step (fs : FileSystem) : Action → Option FileSystem
  | .create request => do
      let root ← fs.inodes[request.inum]?
      let (_,root,sb) ← mlfsExtGetBlocks root fs.sb request.mLblk request.mLen true
      some ⟨sb,fs.inodes.set request.inum root⟩
  | .truncate inum start stop => do
      let root ← fs.inodes[inum]?
      let (root,sb) ← mlfsExtTruncate root start stop fs.sb
      some ⟨sb,fs.inodes.set inum root⟩

def allocatable (sb : SuperBlock) (b : Nat) : Prop := sb.reservedBlocks ≤ b ∧ b < sb.numBlocks

-- Every allocatable block is either in one free range, or named once by one extent or index entry;
-- no other block is either. The bitmap has the named blocks set.
structure Owned (fs : FileSystem) : Prop where
  ranges : fs.sb.Ordered
  reserved : 0 < fs.sb.reservedBlocks
  once : ∀ b, allocatable fs.sb b → fs.sb.free.count b + fs.referenced.count b = 1
  inside : ∀ b, ¬ allocatable fs.sb b → b ∉ fs.sb.free ∧ b ∉ fs.referenced
  bitmap : ∀ b, allocatable fs.sb b → (fs.sb.sBlkBitmap.bitmap b = true ↔ b ∈ fs.referenced)
  ranges_cover : ∀ b, allocatable fs.sb b → (b ∈ fs.sb.free ↔ b ∉ fs.referenced)

variable {fs : FileSystem}

theorem Owned.balanced (owned : Owned fs) : fs.account.Balanced := by
  have members : ∀ b, allocatable fs.sb b ↔ b ∈ span fs.sb.reservedBlocks (fs.sb.numBlocks - fs.sb.reservedBlocks) := by
    intro b
    rw [mem_span,allocatable]
    omega
  refine ⟨owned.ranges,owned.reserved,?_⟩
  rw [FileSystem.account,←FileSystem.referenced]
  ext b
  rw [count_add]
  by_cases here : allocatable fs.sb b
  · rw [owned.once b here,count_eq_one_of_mem (nodup_span _ _) ((members b).mp here)]
  · obtain ⟨notFree,notNamed⟩ := owned.inside b here
    rw [count_eq_zero_of_notMem notFree,count_eq_zero_of_notMem notNamed,
      count_eq_zero_of_notMem (fun member => here ((members b).mpr member))]

theorem Owned.marked (owned : Owned fs) : Marked fs.sb := by
  intro b low high
  rw [owned.bitmap b ⟨low,high⟩,owned.ranges_cover b ⟨low,high⟩,not_not]

theorem owned_of_balanced (balanced : fs.account.Balanced) (marked : Marked fs.sb) : Owned fs := by
  have total : fs.sb.free + fs.referenced = _ := balanced.total
  have members : ∀ b, (b ∈ fs.sb.free ∨ b ∈ fs.referenced) ↔ allocatable fs.sb b := fun b => balanced.mem
  have apart : ∀ b, b ∈ fs.referenced → b ∉ fs.sb.free := fun b => balanced.held_not_free
  refine ⟨balanced.ordered,balanced.reserved,?_,?_,?_,?_⟩
  · intro b here
    have member : b ∈ fs.sb.free + fs.referenced := mem_add.mpr ((members b).mpr here)
    rw [←count_add]
    exact count_eq_one_of_mem balanced.nodup member
  · intro b outside
    constructor
    · exact fun free => outside ((members b).mp (Or.inl free))
    · exact fun named => outside ((members b).mp (Or.inr named))
  · intro b here
    exact balanced.bit_iff_held marked here.1 here.2
  · intro b here
    constructor
    · exact fun free named => apart b named free
    · exact fun unnamed => ((members b).mpr here).resolve_right unnamed

theorem account_set {inum : Nat} {root : ExtRoot} (root' : ExtRoot) (sb : SuperBlock)
    (found : fs.inodes[inum]? = some root) :
    ∃ data held : Multiset Nat,
      fs.account = ⟨fs.sb,data + extentBlocks (extents root.node),held + nodes root.node⟩ ∧
      FileSystem.account ⟨sb,fs.inodes.set inum root'⟩ =
        ⟨sb,data + extentBlocks (extents root'.node),held + nodes root'.node⟩ := by
  obtain ⟨data,before,after⟩ := sum_map_set (fun root => extentBlocks (extents root.node)) found
  obtain ⟨held,before',after'⟩ := sum_map_set (fun root => nodes root.node) found
  refine ⟨data,held,?_,?_⟩
  · simp only [FileSystem.account,FileSystem.dataBlocks,FileSystem.treeBlocks,before,before']
  · simp only [FileSystem.account,FileSystem.dataBlocks,FileSystem.treeBlocks,after,after']

structure Kept (a : Account) : Prop where
  balanced : a.Balanced
  small : a.sb.numBlocks ≤ 2 ^ 32
  marked : Marked a.sb

theorem Kept.moves {phase : Phase} {a b : Account} (kept : Kept a) (moves : Moves phase a b) : Kept b :=
  ⟨moves.balanced kept.balanced,(moves.sameDevice kept.balanced).2.1.le.trans kept.small,
    moves.marked kept.balanced kept.small kept.marked⟩

theorem step_kept {fs' : FileSystem} {action : Action} (kept : Kept fs.account) (done : step fs action = some fs') :
    Kept fs'.account := by
  cases action with
  | create request =>
    obtain ⟨root,found,done⟩ := Option.bind_eq_some_iff.mp done
    obtain ⟨⟨result,root',sb'⟩,got,done⟩ := Option.bind_eq_some_iff.mp done
    cases done
    obtain ⟨data,held,before,after⟩ := account_set root' sb' found
    rw [before] at kept
    rw [after]
    rcases getBlocks_parts got with ⟨rfl,rfl⟩ | ⟨sb₁,most,alloc,moves,sum⟩
    · exact kept
    · -- The data blocks are taken first, then the tree takes and returns nodes.
      have taken := kept.balanced.take_alloc (fun tree => by cases tree) alloc
      have grown : Kept ⟨sb₁,data + extentBlocks (extents root.node) + span result.mPblk result.ret,
          held + nodes root.node⟩ := by
        refine ⟨?_,taken.device.2.1.le.trans kept.small,kept.balanced.take_marked taken kept.small ?_ kept.marked⟩
        · have sum := kept.balanced.take taken
          simp only [Account.Balanced] at sum ⊢
          rwa [add_right_comm] at sum
        · exact lt_of_le_of_lt (most.trans request.short) (by decide)
      rw [sum,←add_assoc]
      exact grown.moves (moves _ held)
  | truncate inum start stop =>
    obtain ⟨root,found,done⟩ := Option.bind_eq_some_iff.mp done
    obtain ⟨⟨root',sb'⟩,removed,done⟩ := Option.bind_eq_some_iff.mp done
    cases done
    obtain ⟨data,held,before,after⟩ := account_set root' sb' found
    rw [before] at kept
    rw [after]
    obtain ⟨middle,cut,returned⟩ := extTruncate_moves removed
    exact (kept.moves cut).moves returned

theorem blocks_owned_once (fs fs' : FileSystem) (actions : List Action) (start : Owned fs) (small : fs.sb.numBlocks ≤ 2 ^ 32)
    (reached : run step fs actions = some fs') : Owned fs' := by
  have kept : Kept fs'.account := invariant_run step (fun _ _ => True) (fun fs => Kept fs.account)
    (fun _ _ _ kept _ stepped => step_kept kept stepped) fs fs' actions ⟨start.balanced,small,start.marked⟩
    (guarded_true step fs actions) reached
  exact owned_of_balanced kept.balanced kept.marked

def fresh (numBlocks reservedBlocks inodes : Nat) : FileSystem :=
  ⟨initSuperBlock numBlocks reservedBlocks,List.replicate inodes ⟨0,leafNode []⟩⟩

theorem fresh_owned {numBlocks reservedBlocks : Nat} (inodes : Nat) (reserved : 0 < reservedBlocks)
    (space : reservedBlocks < numBlocks) : Owned (fresh numBlocks reservedBlocks inodes) := by
  apply owned_of_balanced
  have noData : (fresh numBlocks reservedBlocks inodes).dataBlocks = 0 := by
    simp [FileSystem.dataBlocks,fresh,List.sum_replicate]
  have noNodes : (fresh numBlocks reservedBlocks inodes).treeBlocks = 0 := by
    simp [FileSystem.treeBlocks,fresh,List.sum_replicate]
  have balanced := init_balanced reserved space
  · rw [Account.Balanced,FileSystem.account,noData,noNodes,add_zero]
    exact balanced
  · exact init_marked space

theorem blocks_owned_once_grown :
    ∃ fs', run step (fresh 64 8 2)
      [.create ⟨0,0,2,by decide⟩,.create ⟨0,10,1,by decide⟩,.create ⟨1,4,3,by decide⟩,.create ⟨0,20,1,by decide⟩,
        .create ⟨0,30,1,by decide⟩,.create ⟨0,40,1,by decide⟩,.truncate 0 1 30] = some fs' ∧ Owned fs' := by
  refine (Option.isSome_iff_exists.mp ?_).imp fun fs' reached => ⟨reached,blocks_owned_once _ _ _
    (fresh_owned 2 (by decide) (by decide)) (by decide) reached⟩
  decide +kernel

def fiveExtents : List Action := [0,10,20,30,40].map fun lblk => .create ⟨0,lblk,1,by decide⟩

-- The fifth extent of a file needs a tree node. It is the last block, and bit 0 is set for it.
theorem last_node_unmarked : Owned (fresh (2 ^ 32 + 1) 8 1) ∧ ∃ fs', run step (fresh (2 ^ 32 + 1) 8 1) fiveExtents = some fs' ∧
    fs'.treeBlocks = {2 ^ 32} ∧ fs'.sb.sBlkBitmap.bitmap (2 ^ 32) = false ∧ ¬ Owned fs' := by
  obtain ⟨fs',reached,node,clear,low,high⟩ : ∃ fs', run step (fresh (2 ^ 32 + 1) 8 1) fiveExtents = some fs' ∧
      fs'.treeBlocks = {2 ^ 32} ∧ fs'.sb.sBlkBitmap.bitmap (2 ^ 32) = false ∧
      fs'.sb.reservedBlocks ≤ 2 ^ 32 ∧ 2 ^ 32 < fs'.sb.numBlocks := by decide +kernel
  refine ⟨fresh_owned 1 (by decide) (by decide),fs',reached,node,clear,fun owned => ?_⟩
  have named : 2 ^ 32 ∈ fs'.referenced := mem_add.mpr (Or.inr (node ▸ mem_singleton_self _))
  rw [(owned.bitmap _ ⟨low,high⟩).mpr named] at clear
  cases clear

end Assise.Ownership
