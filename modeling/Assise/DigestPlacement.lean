import Assise.DigestOwnership

-- Extent-tree nodes are read and written at their raw block number: which digests keep other blocks away from them, and
-- their write-back away from file data.
namespace Assise.Digest

open Balloc Extents MapTable Lib.Runs Lib.Spans
open LogRing (gLogSize)

structure Placed (fs : KernFs) : Prop extends Owned fs where
  atHome : ∀ b ∈ fs.treeBlocks, fs.home b = b

def FreeAtHome (fs : KernFs) : Prop := ∀ b ∈ fs.sb.free, fs.home b = b

variable {fs' fs : KernFs} {inum : Nat}

theorem Placed.create {mLblk mLen : Nat} {map : MapResult} (placed : Placed fs)
    (free : FreeAtHome fs) (done : fs.getBlocks inum mLblk mLen = some (map,fs')) : Placed fs' ∧ FreeAtHome fs' := by
  obtain ⟨nodes,free',_⟩ := placed.toOwned.create_keeps done placed.atHome free
  refine ⟨⟨placed.toOwned.create done,?_⟩,?_⟩
  · obtain ⟨inode,root,sb,found,got,rfl⟩ := getBlocks_parts done
    exact nodes
  · obtain ⟨inode,root,sb,found,got,rfl⟩ := getBlocks_parts done
    exact free'

theorem Placed.truncate {start stop : Nat} (placed : Placed fs) (free : FreeAtHome fs)
    (done : fs.truncate inum start stop = some fs') : Placed fs' := by
  obtain ⟨lost,balanced⟩ := placed.balanced
  obtain ⟨middle,start,cut,returned⟩ := truncate_moves balanced done
  obtain ⟨_,nodes₁,_,_⟩ := cut.grow_keeps start placed.atHome free
  obtain ⟨_,nodes₂,_⟩ := returned.shrink_keeps (cut.balanced start) nodes₁
  refine ⟨placed.toOwned.truncate done,?_⟩
  obtain ⟨inode,root,sb,found,got,rfl⟩ := truncate_parts done
  exact nodes₂

theorem Placed.setInode {inode inode' : Inode} (placed : Placed fs)
    (found : fs.inodes[inum]? = some inode) (root : inode'.root = inode.root ∨ inode'.root = emptyRoot) :
    Placed {fs with inodes := fs.inodes.set inum inode'} :=
  ⟨placed.toOwned.setInode found root,fun b node => placed.atHome b ((setInode_blocks found root).2 b node)⟩

section Effects
variable {P : CallCondition}

theorem Effect.plain (effect : Effect NoCall fs fs') (placed : Placed fs) :
    Placed fs' ∧ fs'.sb = fs.sb ∧ fs'.logStart = fs.logStart ∧ (∀ b ∈ fs'.dataBlocks, b ∈ fs.dataBlocks) ∧
      ∀ b < fs.logStart, b ∉ fs.dataBlocks → fs'.home b = fs.home b := by
  cases effect with
  | create met done => exact met.elim
  | swap owned log =>
    have kept : ∀ b < _, b ∉ _ → _ = _ := fun b low other =>
      placed.toOwned.swap_other owned log low fun same => other (same ▸ owned)
    refine ⟨⟨(placed.toOwned.swap owned log).1,fun b node => ?_⟩,rfl,rfl,fun b data => data,kept⟩
    exact (kept b (placed.below (Or.inr node)) (placed.apart node)).trans (placed.atHome b node)
  | copy disk owned log =>
    obtain ⟨after,kept⟩ := placed.toOwned.copy disk owned log
    have kept' : ∀ b < _, _ = _ := fun b low => kept b (lt_of_lt_of_le low (Nat.le_add_right _ _))
    refine ⟨⟨after,fun b node => ?_⟩,rfl,rfl,fun b data => data,fun b low _ => kept' b low⟩
    exact (kept' b (placed.below (Or.inr node))).trans (placed.atHome b node)
  | inode found itype size =>
    exact ⟨placed.setInode found (Or.inl rfl),rfl,rfl,(setInode_blocks found (Or.inl (by rfl))).1,fun b _ _ => rfl⟩
  | clear found itype size =>
    exact ⟨placed.setInode found (Or.inr rfl),rfl,rfl,(setInode_blocks found (Or.inr (by rfl))).1,fun b _ _ => rfl⟩

theorem Effect.placed (effect : Effect P fs fs') (placed : Placed fs) (free : FreeAtHome fs) :
    Placed fs' ∧ FreeAtHome fs' := by
  rcases effect.call_or_plain with ⟨_,_,_,_,_,done⟩ | plain
  · exact placed.create free done
  · obtain ⟨after,sb,_,_,kept⟩ := plain.plain placed
    refine ⟨after,fun b member => ?_⟩
    rw [sb] at member
    obtain ⟨low,other⟩ := placed.free_apart member
    exact (kept b low other).trans (free b member)

theorem effects_placed (effects : Effects P fs fs') (placed : Placed fs) (free : FreeAtHome fs) :
    Placed fs' ∧ FreeAtHome fs' := by
  induction effects with
  | refl => exact ⟨placed,free⟩
  | tail _ effect ih => exact effect.placed ih.1 ih.2

theorem noCall_placed (effects : Effects NoCall fs fs') (placed : Placed fs) : Placed fs' := by
  induction effects with
  | refl => exact placed
  | tail _ effect ih => exact (effect.plain ih).1

theorem Digested.placed (digested : Digested P fs fs') (placed : Placed fs) (free : FreeAtHome fs) :
    Placed fs' := by
  obtain ⟨grown,cut,effects,truncated,rest⟩ := digested.parts
  obtain ⟨placed₁,free₁⟩ := effects_placed effects placed free
  rcases truncated with rfl | ⟨inum,start,stop,done⟩
  · exact noCall_placed rest placed₁
  · exact noCall_placed rest (placed₁.truncate free₁ done)

end Effects

theorem Placed.write {libfsId blk : Nat} (placed : Placed fs) (own : fs.OwnLog libfsId blk)
    (offset size : Nat) (bytes : Nat → UInt8) :
    Placed (logWrite fs blk offset size bytes) ∧
      ∀ b < fs.logStart, (logWrite fs blk offset size bytes).home b = fs.home b := by
  obtain ⟨owned,kept⟩ := placed.toOwned.write own offset size bytes
  have low : ∀ b < fs.logStart, (logWrite fs blk offset size bytes).home b = fs.home b :=
    fun b below => kept b (lt_of_lt_of_le below (Nat.le_add_right _ _))
  exact ⟨⟨owned,fun b node => (low b (placed.below (Or.inr node))).trans (placed.atHome b node)⟩,low⟩

theorem Placed.flush (placed : Placed fs) (rest : Disk) (referenced : List Nat) :
    Placed (syncAllBuffers fs rest referenced) := ⟨placed.toOwned.flush rest referenced,placed.atHome⟩

def DigestsAtHome (fs : KernFs) : Action → Prop
  | .digest .. => FreeAtHome fs
  | .write .. | .flush .. => True

instance (fs : KernFs) : Decidable (FreeAtHome fs) := by
  unfold FreeAtHome
  infer_instance

instance (fs : KernFs) (action : Action) : Decidable (DigestsAtHome fs action) := by
  cases action <;> (unfold DigestsAtHome; infer_instance)

theorem step_placed {action : Action} (placed : Placed fs) (home : DigestsAtHome fs action)
    (done : step fs action = some fs') : Placed fs' := by
  cases action with
  | write libfsId blk offset size bytes =>
    obtain ⟨own,rfl⟩ := step_write.mp done
    exact (placed.write own offset size bytes).1
  | digest libfsId entry =>
    obtain ⟨from_,digested⟩ := step_digest.mp done
    exact (digestEntry_digested from_ (callsMeet_true fs libfsId entry) digested).placed placed home
  | flush rest referenced =>
    cases done
    exact placed.flush rest referenced

theorem tree_nodes_are_no_homes (fs fs' : KernFs) (actions : List Action) (start : Placed fs)
    (guarded : Guarded step DigestsAtHome fs actions) (reached : run step fs actions = some fs') :
    ∀ b ∈ fs'.treeBlocks, ∀ c, c ∈ fs'.dataBlocks ∨ fs'.InLogs c → (lblk2pblk table fs'.map c).1 ≠ b := by
  have placed : Placed fs' := invariant_run step DigestsAtHome Placed
    (fun _ _ _ placed home stepped => step_placed placed home stepped) fs fs' actions start guarded reached
  intro b node c other same
  obtain ⟨n,σ,mapped⟩ := placed.mapped
  have low := placed.below (Or.inr node)
  have top := mapped.logs
  rw [lblk2pblk_home,←placed.atHome b node] at same
  have bound : c < n := by
    rcases other with data | log
    · have below := placed.below (Or.inl data)
      omega
    · unfold KernFs.InLogs at log
      omega
  have equal : c = b := mapped.injective bound (by omega) same
  subst equal
  rcases other with data | log
  · exact placed.apart node data
  · unfold KernFs.InLogs at log
    omega

def KernFs.fresh (numBlocks reservedBlocks logStart logs inodes : Nat) : KernFs where
  sb := initSuperBlock numBlocks reservedBlocks
  inodes := List.replicate inodes ⟨none,0,emptyRoot⟩
  map := Table.empty
  disk := fun _ _ => 0
  logStart := logStart
  logs := logs

theorem fresh_blocks (numBlocks reservedBlocks logStart logs inodes : Nat) :
    (KernFs.fresh numBlocks reservedBlocks logStart logs inodes).dataBlocks = 0 ∧
    (KernFs.fresh numBlocks reservedBlocks logStart logs inodes).treeBlocks = 0 := by
  constructor
  · simp [KernFs.dataBlocks,KernFs.fresh,emptyRoot,List.sum_replicate]
  · simp [KernFs.treeBlocks,KernFs.fresh,emptyRoot,List.sum_replicate]

theorem fresh_home {numBlocks reservedBlocks logStart logs inodes : Nat} (b : Nat) :
    (KernFs.fresh numBlocks reservedBlocks logStart logs inodes).home b = b := by
  simp [KernFs.home,MapTable.home,KernFs.fresh,table,Table.empty,mlfsMapUninit]

theorem fresh_placed {numBlocks reservedBlocks logStart logs : Nat} (inodes : Nat) (reserved : 0 < reservedBlocks)
    (space : reservedBlocks < numBlocks) (area : numBlocks ≤ logStart) (small : logStart + logs * gLogSize ≤ 2 ^ 32) :
    Placed (KernFs.fresh numBlocks reservedBlocks logStart logs inodes) := by
  obtain ⟨noData,noNodes⟩ := fresh_blocks numBlocks reservedBlocks logStart logs inodes
  refine ⟨⟨⟨0,?_⟩,area,⟨_,1,⟨fun b _ => ?_,fun b _ => fresh_home b,fun b bound => bound⟩,le_refl _,small⟩⟩,?_⟩
  · rw [noData,noNodes]
    exact init_balanced reserved space
  · exact ⟨by simp [table,KernFs.fresh,Table.empty],by simp [table,KernFs.fresh,Table.empty],
      by simp [table,KernFs.fresh,Table.empty],by simp [table,KernFs.fresh,Table.empty]⟩
  · rw [noNodes]
    intro b member
    cases member

def wholeBlock (inum block blknr : Nat) : Action :=
  .digest 0 (.file inum (block * gBlockSizeBytes) gBlockSizeBytes blknr)
def partOfBlock (inum block blknr : Nat) : Action := .digest 0 (.file inum (block * gBlockSizeBytes) 100 blknr)
def createFile (inum : Nat) : Action := .digest 0 (.inode inum (some .file) 0)

def grownActions : List Action :=
  [createFile 0,createFile 1,wholeBlock 0 0 1000,wholeBlock 0 2 1001,wholeBlock 0 4 1002,wholeBlock 0 6 1003,
    wholeBlock 0 8 1004,wholeBlock 1 0 1005,.flush (fun _ _ => 0) [],partOfBlock 0 2 1001,.digest 0 (.unlink 1)]

theorem tree_nodes_are_no_homes_grown :
    ∃ fs', run step (KernFs.fresh 64 8 1000 1 2) grownActions = some fs' ∧
      ∀ b ∈ fs'.treeBlocks, ∀ c, c ∈ fs'.dataBlocks ∨ fs'.InLogs c → (lblk2pblk table fs'.map c).1 ≠ b := by
  have guarded : Guarded step DigestsAtHome (KernFs.fresh 64 8 1000 1 2) grownActions := by decide +kernel
  obtain ⟨fs',reached⟩ : ∃ fs', run step (KernFs.fresh 64 8 1000 1 2) grownActions = some fs' := by decide +kernel
  exact ⟨fs',reached,tree_nodes_are_no_homes _ fs' _
    (fresh_placed 2 (by decide) (by decide) (by decide) (by decide)) guarded reached⟩

-- Four swapped blocks of file 0 are freed when all but one of the others are taken; the node that file 2 then needs
-- is block 27109, the home of log block 616973.
def sharedNodeActions : List Action :=
  [createFile 0,createFile 1,createFile 2,createFile 3,.digest 0 (.file 0 0 (4 * gBlockSizeBytes) 616970),
    partOfBlock 1 0 616980,partOfBlock 1 2 616981,partOfBlock 1 4 616982,partOfBlock 1 6 616983,
    partOfBlock 2 0 616984,partOfBlock 2 2 616985,partOfBlock 2 4 616986,partOfBlock 2 6 616987,
    .digest 0 (.alloc 3 (562734 * gBlockSizeBytes)),.digest 0 (.unlink 0),
    partOfBlock 1 8 616988,partOfBlock 2 8 616989]

theorem tree_node_is_home_of_log_block :
    ∃ fs, run step (KernFs.fresh 589854 27106 616960 5 4) sharedNodeActions = some fs ∧
      27109 ∈ fs.treeBlocks ∧ fs.InLogs 616973 ∧ (lblk2pblk table fs.map 616973).1 = 27109 := by decide +kernel

def DirtyApart (fs : KernFs) : Prop :=
  ∀ b ∈ fs.sb.bdBhDirty, b < fs.logStart ∧ fs.home b = b ∧ b ∉ fs.dataBlocks

def NoFreeDirty : CallCondition := fun fs _ _ _ => ∀ b ∈ fs.sb.free, b ∉ fs.sb.bdBhDirty

theorem create_dirtyApart {mLblk mLen : Nat} {map : MapResult} (placed : Placed fs)
    (free : FreeAtHome fs) (dirty : DirtyApart fs) (quiet : NoFreeDirty fs inum mLblk mLen)
    (done : fs.getBlocks inum mLblk mLen = some (map,fs')) : DirtyApart fs' := by
  rcases create_cases done with rfl | ⟨sb₁,created⟩
  · exact dirty
  · obtain ⟨placed',_⟩ := placed.create free done
    obtain ⟨lost,balanced⟩ := placed.balanced
    obtain ⟨taken,after⟩ := created_balanced balanced created
    have once := after.nodup
    -- What is free or a node once the data blocks are taken is no data block.
    have outside : ∀ b, b ∈ sb₁.free ∨ b ∈ fs.treeBlocks → b ∉ fs'.dataBlocks := by
      intro b known data
      have inside : b ∈ lost + fs'.dataBlocks := Multiset.mem_add.mpr (Or.inr data)
      rcases known with unused | node
      · exact Lib.Spans.apart rfl once unused (Multiset.mem_add.mpr (Or.inl inside))
      · exact Lib.Spans.apart rfl (Multiset.nodup_add.mp once).2.1 inside node
    have fewer : ∀ b ∈ sb₁.free, b ∈ fs.sb.free := by
      intro b member
      rw [taken.free]
      exact Multiset.mem_add.mpr (Or.inl member)
    obtain ⟨_,_,_,marked⟩ := (created.moves (lost + fs'.dataBlocks)).grow_keeps after
      (P:=fun b => b < fs.logStart ∧ fs.home b = b ∧ b ∉ fs'.dataBlocks)
      (fun b node => ⟨placed.below (Or.inr node),placed.atHome b node,outside b (Or.inr node)⟩)
      (fun b unused => ⟨(placed.free_apart (fewer b unused)).1,free b (fewer b unused),outside b (Or.inl unused)⟩)
    have same : fs'.logStart = fs.logStart ∧ fs'.map = fs.map := by
      obtain ⟨_,_,_,_,_,rfl⟩ := getBlocks_parts done
      exact ⟨rfl,rfl⟩
    intro b listed
    unfold KernFs.home
    rw [same.1,same.2]
    rcases marked b listed with old | new
    · simp only at old
      rw [taken.dirty] at old
      obtain ⟨low,home,notData⟩ := dirty b old
      refine ⟨low,home,?_⟩
      rw [created.data,Multiset.mem_add]
      rintro (data | taking)
      · exact notData data
      · refine quiet b ?_ old
        rw [taken.free]
        exact Multiset.mem_add.mpr (Or.inr taking)
    · exact new

theorem truncate_dirtyApart {start stop : Nat} (placed : Placed fs) (free : FreeAtHome fs)
    (dirty : DirtyApart fs) (done : fs.truncate inum start stop = some fs') : DirtyApart fs' := by
  obtain ⟨lost,balanced⟩ := placed.balanced
  obtain ⟨middle,start,cut,returned⟩ := truncate_moves balanced done
  have known : ∀ b ∈ fs.treeBlocks, b < fs.logStart ∧ fs.home b = b ∧ b ∉ fs.dataBlocks := fun b node =>
    ⟨placed.below (Or.inr node),placed.atHome b node,placed.apart node⟩
  obtain ⟨constant,known₁,_,marked₁⟩ := cut.grow_keeps start known
    (fun b unused => ⟨(placed.free_apart unused).1,free b unused,(placed.free_apart unused).2⟩)
  obtain ⟨fewer,_,marked₂⟩ := returned.shrink_keeps (cut.balanced start) known₁
  have shrunk : fs'.dataBlocks ≤ fs.dataBlocks := by
    rw [constant] at fewer
    exact le_of_add_le_add_left fewer
  have same : fs'.logStart = fs.logStart ∧ fs'.map = fs.map := by
    obtain ⟨_,_,_,_,_,rfl⟩ := truncate_parts done
    exact ⟨rfl,rfl⟩
  intro b listed
  have kept : b < fs.logStart ∧ fs.home b = b ∧ b ∉ fs.dataBlocks := by
    rcases marked₂ b listed with early | late
    · exact (marked₁ b early).elim (dirty b) id
    · exact late
  unfold KernFs.home
  rw [same.1,same.2]
  exact ⟨kept.1,kept.2.1,fun member => kept.2.2 (Multiset.mem_of_le shrunk member)⟩

theorem Effect.plain_dirtyApart (effect : Effect NoCall fs fs') (placed : Placed fs)
    (dirty : DirtyApart fs) : DirtyApart fs' := by
  obtain ⟨_,sb,start,fewer,kept⟩ := effect.plain placed
  intro b listed
  rw [sb] at listed
  obtain ⟨low,home,other⟩ := dirty b listed
  exact ⟨start ▸ low,(kept b low other).trans home,fun data => other (fewer b data)⟩

theorem effects_dirtyApart (effects : Effects NoFreeDirty fs fs') (placed : Placed fs)
    (free : FreeAtHome fs) (dirty : DirtyApart fs) : DirtyApart fs' := by
  induction effects with
  | refl => exact dirty
  | tail path effect ih =>
    obtain ⟨placed₁,free₁⟩ := effects_placed path placed free
    rcases effect.call_or_plain with ⟨_,_,_,_,met,done⟩ | plain
    · exact create_dirtyApart placed₁ free₁ ih met done
    · exact plain.plain_dirtyApart placed₁ ih

theorem noCall_dirtyApart (effects : Effects NoCall fs fs') (placed : Placed fs)
    (dirty : DirtyApart fs) : DirtyApart fs' := by
  induction effects with
  | refl => exact dirty
  | tail path effect ih => exact effect.plain_dirtyApart (noCall_placed path placed) ih

theorem Digested.dirtyApart (digested : Digested NoFreeDirty fs fs') (placed : Placed fs)
    (free : FreeAtHome fs) (dirty : DirtyApart fs) : DirtyApart fs' := by
  obtain ⟨grown,cut,effects,truncated,rest⟩ := digested.parts
  obtain ⟨placed₁,free₁⟩ := effects_placed effects placed free
  have dirty₁ := effects_dirtyApart effects placed free dirty
  rcases truncated with rfl | ⟨inum,start,stop,done⟩
  · exact noCall_dirtyApart rest placed₁ dirty₁
  · exact noCall_dirtyApart rest (placed₁.truncate free₁ done) (truncate_dirtyApart placed₁ free₁ dirty₁ done)

def DigestsQuietly (fs : KernFs) : Action → Prop
  | .digest libfsId entry => FreeAtHome fs ∧ CallsMeet NoFreeDirty fs libfsId entry
  | .write .. | .flush .. => True

theorem step_dirtyApart {action : Action} (placed : Placed fs) (dirty : DirtyApart fs)
    (quiet : DigestsQuietly fs action) (done : step fs action = some fs') : Placed fs' ∧ DirtyApart fs' := by
  cases action with
  | write libfsId blk offset size bytes =>
    obtain ⟨own,rfl⟩ := step_write.mp done
    obtain ⟨placed',kept⟩ := placed.write own offset size bytes
    refine ⟨placed',fun b listed => ?_⟩
    obtain ⟨low,home,other⟩ := dirty b listed
    exact ⟨low,(kept b low).trans home,other⟩
  | digest libfsId entry =>
    obtain ⟨from_,digested⟩ := step_digest.mp done
    obtain ⟨free,met⟩ := quiet
    have parts := digestEntry_digested from_ met digested
    exact ⟨parts.placed placed free,parts.dirtyApart placed free dirty⟩
  | flush rest referenced =>
    cases done
    exact ⟨placed.flush rest referenced,fun b listed => dirty b (List.mem_of_mem_filter listed)⟩

theorem flush_keeps_file_data (fs fs' : KernFs) (actions : List Action) (start : Placed fs) (clean : DirtyApart fs)
    (guarded : Guarded step DigestsQuietly fs actions) (reached : run step fs actions = some fs') (rest : Disk)
    (referenced : List Nat) :
    ∀ b ∈ fs'.dataBlocks, ∀ o,
      (syncAllBuffers fs' rest referenced).disk (lblk2pblk table fs'.map b).1 o =
        fs'.disk (lblk2pblk table fs'.map b).1 o := by
  obtain ⟨placed,dirty⟩ : Placed fs' ∧ DirtyApart fs' := invariant_run step DigestsQuietly (fun fs => Placed fs ∧ DirtyApart fs)
    (fun _ _ _ known quiet stepped => step_dirtyApart known.1 known.2 quiet stepped) fs fs' actions ⟨start,clean⟩
    guarded reached
  intro b data o
  have unlisted : (lblk2pblk table fs'.map b).1 ∉ fs'.sb.bdBhDirty := by
    rw [lblk2pblk_home]
    intro listed
    obtain ⟨low,home,other⟩ := dirty _ listed
    obtain ⟨n,σ,mapped⟩ := placed.mapped
    have top := mapped.logs
    have below := placed.below (Or.inl data)
    have same := mapped.injective (by omega) (by omega) home
    refine other ?_
    rwa [same]
  unfold syncAllBuffers
  exact if_neg fun both => unlisted both.1

instance (fs : KernFs) (inum mLblk mLen : Nat) : Decidable (NoFreeDirty fs inum mLblk mLen) := by
  unfold NoFreeDirty
  infer_instance

instance (fs : KernFs) (action : Action) : Decidable (DigestsQuietly fs action) := by
  cases action <;> (unfold DigestsQuietly; infer_instance)

def flushedActions : List Action :=
  [createFile 0,createFile 1,partOfBlock 0 0 1000,partOfBlock 0 2 1001,partOfBlock 0 4 1002,partOfBlock 0 6 1003,
    partOfBlock 0 8 1004,.digest 0 (.unlink 0),.flush (fun _ _ => 0) [],wholeBlock 1 0 1006,partOfBlock 1 0 1007,
    .digest 0 (.file 1 (2 * gBlockSizeBytes) (8 * gBlockSizeBytes) 1008)]

theorem flush_keeps_file_data_grown :
    ∃ fs', run step (KernFs.fresh 64 8 1000 1 2) flushedActions = some fs' ∧
      ∀ b ∈ fs'.dataBlocks, ∀ o,
        (syncAllBuffers fs' (fun _ _ => 0) []).disk (lblk2pblk table fs'.map b).1 o =
          fs'.disk (lblk2pblk table fs'.map b).1 o := by
  have guarded : Guarded step DigestsQuietly (KernFs.fresh 64 8 1000 1 2) flushedActions := by decide +kernel
  obtain ⟨fs',reached⟩ : ∃ fs', run step (KernFs.fresh 64 8 1000 1 2) flushedActions = some fs' := by decide +kernel
  exact ⟨fs',reached,flush_keeps_file_data _ fs' _
    (fresh_placed 2 (by decide) (by decide) (by decide) (by decide)) (fun _ listed => by cases listed) guarded
    reached (fun _ _ => 0) []⟩

-- All but four blocks are in use. The buffers of two nodes are still to be written when file 5 takes one of their
-- blocks.
def overwrittenActions : List Action :=
  [.write 0 616991 0 100 (fun _ => 7),createFile 1,createFile 2,createFile 3,createFile 4,createFile 5] ++
    (List.range 5).map (fun i => wholeBlock 1 (2 * i) (616970 + i)) ++
    (List.range 5).map (fun i => wholeBlock 2 (2 * i) (616975 + i)) ++
    [.digest 0 (.alloc 3 (562734 * gBlockSizeBytes)),.digest 0 (.unlink 1),.digest 0 (.unlink 2),
      .digest 0 (.file 4 0 (10 * gBlockSizeBytes) 616980),partOfBlock 5 0 616990,partOfBlock 5 1 616991]

theorem flush_overwrites_file_data :
    ∃ fs, run step (KernFs.fresh 589854 27106 616960 5 6) overwrittenActions = some fs ∧
      589852 ∈ fs.dataBlocks ∧ fs.disk (lblk2pblk table fs.map 589852).1 0 = 7 ∧
      (syncAllBuffers fs (fun _ _ => 0) []).disk (lblk2pblk table fs.map 589852).1 0 = 0x0a := by
  obtain ⟨fs,reached,⟨inode,found,listed⟩,bytes⟩ :
      ∃ fs, run step (KernFs.fresh 589854 27106 616960 5 6) overwrittenActions = some fs ∧
        (∃ inode, fs.inodes[5]? = some inode ∧ ⟨1,1,589852⟩ ∈ extents inode.root.node) ∧
        fs.disk (lblk2pblk table fs.map 589852).1 0 = 7 ∧
        (syncAllBuffers fs (fun _ _ => 0) []).disk (lblk2pblk table fs.map 589852).1 0 = 0x0a := by decide +kernel
  exact ⟨fs,reached,mem_dataBlocks found (mem_extentBlocks listed ⟨le_refl _,Nat.lt_add_one _⟩),bytes⟩

-- Whatever is digested and written back: a block has at most one use, and data and log blocks have homes of their own.
theorem blocks_have_one_use (fs fs' : KernFs) (actions : List Action) (start : Owned fs) (reached : run step fs actions = some fs') :
    (fs'.sb.free + fs'.dataBlocks + fs'.treeBlocks).Nodup ∧ ∀ a b, a ∈ fs'.dataBlocks ∨ fs'.InLogs a →
      b ∈ fs'.dataBlocks ∨ fs'.InLogs b → fs'.home a = fs'.home b → a = b := by
  have owned : Owned fs' := invariant_run step (fun _ _ => True) Owned
    (fun _ _ _ owned _ stepped => step_owned owned stepped) fs fs' actions start (guarded_true ..) reached
  have inside : ∀ b, b ∈ fs'.dataBlocks ∨ fs'.InLogs b → b < fs'.logStart + fs'.logs * gLogSize := fun b used =>
    used.elim (fun data => Nat.lt_add_right _ (owned.below (Or.inl data))) And.right
  refine ⟨?_,fun a b usedA usedB => owned.injective (inside a usedA) (inside b usedB)⟩
  obtain ⟨lost,balanced⟩ := owned.balanced
  refine Multiset.nodup_of_le ?_ balanced.nodup
  rw [add_assoc,add_assoc lost]
  exact add_le_add_right (Multiset.le_add_left _ lost) _

theorem blocks_have_one_use_grown : ∃ fs', run step (KernFs.fresh 64 8 1000 1 2) grownActions = some fs' ∧
    (fs'.sb.free + fs'.dataBlocks + fs'.treeBlocks).Nodup ∧ ∀ a b, a ∈ fs'.dataBlocks ∨ fs'.InLogs a →
      b ∈ fs'.dataBlocks ∨ fs'.InLogs b → fs'.home a = fs'.home b → a = b :=
  (Option.isSome_iff_exists.mp (by decide +kernel)).imp fun fs' reached => ⟨reached,
    blocks_have_one_use _ _ _ (fresh_placed 2 (by decide) (by decide) (by decide) (by decide)).toOwned reached⟩

end Assise.Digest
