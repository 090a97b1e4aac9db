import Assise.DigestFiles
import Assise.FreeRanges

-- What the digest of an unlink and of a smaller size does to a file's blocks.
namespace Assise.Digest

open Balloc Extents MapTable FileMap Lib.Runs Lib.Spans Option List

def KernFs.ownBlocks (fs : KernFs) (inum : Nat) : Multiset Nat :=
  (fs.inodes[inum]?.map fun inode => extentBlocks (extents inode.root.node) + nodes inode.root.node).getD 0

variable {inode : Inode} {fs : KernFs}

theorem ownBlocks_eq {inum : Nat} (found : fs.inodes[inum]? = some inode) :
    fs.ownBlocks inum = extentBlocks (extents inode.root.node) + nodes inode.root.node := by
  rw [KernFs.ownBlocks,found]
  rfl

theorem blocks_zero_iff {root : ExtRoot} (ok : TreeOk root) :
    extentBlocks (extents root.node) + nodes root.node = 0 ↔ ∀ b, blockMap (extents root.node) b = none := by
  constructor
  · intro none_ b
    refine Option.eq_none_iff_forall_ne_some.mpr fun p mapped => ?_
    obtain ⟨e,member,_,_,inside⟩ := blockMap_owned mapped
    have owned : p ∈ extentBlocks (extents root.node) := mem_extentBlocks member (mem_span.mp inside)
    have counted : p ∈ extentBlocks (extents root.node) + nodes root.node := Multiset.mem_add.mpr (Or.inl owned)
    rw [none_] at counted
    exact absurd counted (Multiset.notMem_zero p)
  · intro unmapped
    have empty : extents root.node = [] := by
      refine eq_nil_iff_forall_not_mem.mpr fun e member => ?_
      have positive := (ok.order.valid e member).positive
      have outside := blockMap_eq_none.mp (unmapped e.eeBlock) e member
      simp only [covers,decide_eq_false_iff_not] at outside
      omega
    rw [FileMap.TreeOk.empty ok empty]
    rfl

theorem ownBlocks_zero_iff {inum : Nat} (formed : Formed fs) (found : fs.inodes[inum]? = some inode) :
    fs.ownBlocks inum = 0 ↔ ∀ b, fs.fileMap inum b = none := by
  rw [ownBlocks_eq found,fileMap_eq found]
  exact blocks_zero_iff (formed.trees inode (mem_of_getElem? found))

theorem mapped_of_owned {root : ExtRoot} (ok : TreeOk root) {p : Nat} (owned : p ∈ extentBlocks (extents root.node)) :
    ∃ b, blockMap (extents root.node) b = some p := by
  obtain ⟨e,member,inside⟩ := mem_sum_map.mp owned
  have range := mem_span.mp inside
  refine ⟨e.eeBlock + (p - e.eeStart),(blockMap_eq_some ok.order).mpr ⟨e,member,covers_iff.mpr ?_,?_⟩⟩ <;> omega

section Truncate
variable {fs fs' : KernFs} {inum start stop : Nat} {inode : Inode}

theorem truncate_mod (fs : KernFs) (inum start stop : Nat) :
    fs.truncate inum (start % 2 ^ 32) (stop % 2 ^ 32) = fs.truncate inum start stop := by
  simp only [KernFs.truncate,Nat.mod_mod]

theorem truncate_inode (done : fs.truncate inum start stop = some fs') : ∃ inode, fs'.inodes[inum]? = some inode := by
  obtain ⟨old,root,sb,found,_,rfl⟩ := truncate_parts done
  exact ⟨_,getElem?_set_self (List.getElem?_eq_some_iff.mp found).1⟩

theorem truncate_bound (done : fs.truncate inum start stop = some fs') : stop % 2 ^ 32 < extMaxBlocks - 1 := by
  obtain ⟨inode,root,sb,_,got,_⟩ := truncate_parts done
  unfold mlfsExtTruncate mlfsExtRemoveSpace at got
  split at got
  · cases got
  · omega

theorem truncate_account (formed : Formed fs) (done : fs.truncate inum start stop = some fs') :
    Formed fs' ∧ fs'.fileMap inum = punch (fs.fileMap inum) (start % 2 ^ 32) (stop % 2 ^ 32) ∧
      fs'.sb.free + fs'.ownBlocks inum = fs.sb.free + fs.ownBlocks inum ∧
      ∀ b p, fs.fileMap inum b = some p → fs'.fileMap inum b = none → p ∈ fs'.sb.free := by
  have bound := truncate_bound done
  have whole := done
  rw [←truncate_mod] at whole
  obtain ⟨formed',punched,_⟩ := formed.truncate bound (Nat.mod_mod _ _) whole
  refine ⟨formed',punched,?_⟩
  obtain ⟨inode,root,sb,found,got,rfl⟩ := truncate_parts done
  obtain ⟨held,consistent,_⟩ := formed.consistent found
  have inside : inum < fs.inodes.length := (List.getElem?_eq_some_iff.mp found).1
  have now : (fs.inodes.set inum {inode with root := root})[inum]? = some {inode with root := root} := by simp [inside]
  obtain ⟨mine,_⟩ := fileMap_set found {inode with root := root} sb
  obtain ⟨device,middle,cut,returned⟩ := consistent.truncate_moves got
  have before : Account.Balanced _ := device.toBalanced
  have between := cut.balanced before
  have after := returned.balanced between
  obtain ⟨_,blocks,reserved⟩ := (cut.sameDevice before).trans (returned.sameDevice between)
  have totals := after.total.trans ((by rw [blocks,reserved] : span sb.reservedBlocks (sb.numBlocks - sb.reservedBlocks) =
    span fs.sb.reservedBlocks (fs.sb.numBlocks - fs.sb.reservedBlocks)).trans before.total.symm)
  constructor
  · rw [ownBlocks_eq found,ownBlocks_eq now]
    refine add_left_cancel (a:=held) ?_
    simp only [zero_add] at totals
    calc held + (sb.free + (extentBlocks (extents root.node) + nodes root.node))
        = sb.free + (held + extentBlocks (extents root.node) + nodes root.node) := by abel
      _ = fs.sb.free + (held + extentBlocks (extents inode.root.node) + nodes inode.root.node) := totals
      _ = held + (fs.sb.free + (extentBlocks (extents inode.root.node) + nodes inode.root.node)) := by abel
  · -- The block was data before, so it became neither a node nor another file's, and it is mapped no more.
    intro b p was gone
    obtain ⟨e,member,_,_,there⟩ := blockMap_owned (fileMap_eq found ▸ was)
    have owned : p ∈ extentBlocks (extents inode.root.node) := mem_extentBlocks member (mem_span.mp there)
    obtain ⟨_,distinct,_⟩ := Multiset.nodup_add.mp before.nodup
    obtain ⟨data,_,apart⟩ := Multiset.nodup_add.mp distinct
    have counted : p ∈ held + extentBlocks (extents inode.root.node) := Multiset.mem_add.mpr (Or.inr owned)
    have notFree : p ∉ fs.sb.free := before.held_not_free (Multiset.mem_add.mpr (Or.inl counted))
    have notNode : p ∉ 0 + nodes inode.root.node := Multiset.disjoint_left.mp apart counted
    have notHeld : p ∉ held := fun other => Multiset.disjoint_left.mp (Multiset.nodup_add.mp data).2.2 other owned
    obtain ⟨_,grown,_⟩ := cut.grow_keeps (P:=(· ≠ p)) before (fun x node same => notNode (same ▸ node))
      fun x free same => notFree (same ▸ free)
    obtain ⟨_,left,_⟩ := returned.shrink_keeps (P:=(· ≠ p)) between grown
    have allocatable := before.mem.mp (Or.inr (Multiset.mem_add.mpr (Or.inl counted)))
    rw [←blocks,←reserved] at allocatable
    refine (after.mem.mpr allocatable).resolve_right fun kept => ?_
    rcases Multiset.mem_add.mp kept with kept | node
    · rcases Multiset.mem_add.mp kept with other | still
      · exact notHeld other
      · obtain ⟨b',mapped⟩ := mapped_of_owned (formed'.trees _ (mem_of_getElem? now)) still
        have there' := mapped
        rw [←mine,punched,punch] at there'
        split at there'
        · cases there'
        · obtain ⟨_,rfl⟩ := formed.fileMap_injective was there'
          rw [mine,mapped] at gone
          cases gone
    · exact left p node rfl

theorem truncate_returns (start : Nat) (formed : Formed fs) (found : fs.inodes[inum]? = some inode) (bound : stop % 2 ^ 32 < extMaxBlocks - 1)
    (space : fs.fileMap inum (stop % 2 ^ 32 + 1) = none ∨ inode.root.ehDepth + 2 < fs.sb.free.card) :
    ∃ fs', fs.truncate inum start stop = some fs' := by
  obtain ⟨held,consistent,_⟩ := formed.consistent found
  rw [fileMap_eq found] at space
  obtain ⟨root,sb,got,_⟩ : ∃ root sb, mlfsExtTruncate inode.root (start % 2 ^ 32) (stop % 2 ^ 32) fs.sb = some (root,sb) ∧ _ :=
    truncate_ok consistent bound (Or.inl space)
  exact ⟨_,by simp only [KernFs.truncate,found,got,bind_eq_bind,bind_some]; rfl⟩

end Truncate

def lastReleased (size : Nat) : Nat :=
  if size / gBlockSizeBytes % 2 ^ 32 = 0 then 0 else size / gBlockSizeBytes % 2 ^ 32 - 1

def Released (fs : KernFs) (inum size : Nat) : Prop :=
  (size = 0 → ∀ b, fs.fileMap inum b = none) ∧
    (0 < size → lastReleased size < extMaxBlocks - 1 ∧ ∀ b, fs.fileMap inum b ≠ none → b ≤ lastReleased size)

section Unlink
variable {fs : KernFs} {inum : Nat} {inode : Inode}

theorem release_eq (some_ : 0 < inode.size) : fs.release inum inode = fs.truncate inum 0 (lastReleased inode.size) := by
  unfold KernFs.release lastReleased
  dsimp only
  rw [if_pos some_]
  congr 1
  split
  · assumption
  · rfl

theorem lastReleased_mod (size : Nat) : lastReleased size % 2 ^ 32 = lastReleased size := by
  unfold lastReleased
  have less := Nat.mod_lt (size / gBlockSizeBytes) (by decide : 0 < 2 ^ 32)
  split
  · rfl
  · exact Nat.mod_eq_of_lt (by omega)

theorem unlink_parts {fs' : KernFs} (found : fs.inodes[inum]? = some inode) :
    digestUnlink fs inum = some fs' ↔
      ∃ cut, fs.release inum inode = some cut ∧ fs' = {cut with inodes := cut.inodes.set inum ⟨none,0,emptyRoot⟩} := by
  simp only [digestUnlink,found,bind_eq_bind,bind_some,bind_eq_some_iff,Option.some.injEq]
  exact exists_congr fun cut => and_congr_right fun _ => eq_comm

theorem unlink_returns_blocks_iff (fs : KernFs) (formed : Formed fs) (inum : Nat) (inode : Inode)
    (found : fs.inodes[inum]? = some inode) :
    (∃ fs', digestUnlink fs inum = some fs' ∧ (∀ b, fs'.fileMap inum b = none) ∧
      fs'.sb.free = fs.sb.free + fs.ownBlocks inum) ↔ Released fs inum inode.size := by
  simp only [unlink_parts found]
  rcases Nat.eq_zero_or_pos inode.size with empty | some_
  · -- Nothing is removed, so there must not be anything.
    have kept : fs.release inum inode = some fs := by
      unfold KernFs.release
      exact if_neg (by omega)
    have sizes : Released fs inum inode.size ↔ fs.ownBlocks inum = 0 := by
      rw [ownBlocks_zero_iff formed found,Released,empty]
      simp
    rw [sizes]
    constructor
    · rintro ⟨fs',⟨cut,released,rfl⟩,_,free⟩
      rw [kept] at released
      cases released
      exact left_eq_add.mp free
    · intro none_
      refine ⟨_,⟨fs,kept,rfl⟩,fun b => ?_,by rw [none_,add_zero]⟩
      rw [(fileMap_set found ⟨none,0,emptyRoot⟩ fs.sb).1]
      rfl
  · have sizes : Released fs inum inode.size ↔
        lastReleased inode.size < extMaxBlocks - 1 ∧ ∀ b, fs.fileMap inum b ≠ none → b ≤ lastReleased inode.size := by
      unfold Released
      rw [imp_iff_right some_]
      exact and_iff_right fun none_ => by omega
    rw [sizes,release_eq some_]
    constructor
    · rintro ⟨fs',⟨cut,done,rfl⟩,_,free⟩
      have bound := truncate_bound done
      obtain ⟨formed',punched,accounts,_⟩ := truncate_account formed done
      obtain ⟨old,now⟩ := truncate_inode done
      rw [lastReleased_mod] at bound punched
      dsimp only at free accounts
      rw [free] at accounts
      have gone := (ownBlocks_zero_iff formed' now).mp (add_eq_left.mp accounts)
      refine ⟨bound,fun b mapped => Nat.le_of_not_lt fun above => mapped ?_⟩
      have same := congrFun punched b
      rw [gone b,punch,if_neg (by omega)] at same
      exact same.symm
    · rintro ⟨bound,all⟩
      obtain ⟨cut,done⟩ := truncate_returns 0 formed found (lastReleased_mod inode.size ▸ bound) (Or.inl (by
        by_contra mapped
        rw [lastReleased_mod] at mapped
        have most := all _ mapped
        omega))
      obtain ⟨formed',punched,accounts,_⟩ := truncate_account formed done
      rw [lastReleased_mod] at punched
      have gone : ∀ b, cut.fileMap inum b = none := by
        intro b
        rw [punched,punch]
        split
        · rfl
        · rename_i outside
          by_contra mapped
          exact outside ⟨Nat.zero_le b,all b mapped⟩
      obtain ⟨old,now⟩ := truncate_inode done
      rw [(ownBlocks_zero_iff formed' now).mpr gone,add_zero] at accounts
      refine ⟨_,⟨cut,done,rfl⟩,fun b => ?_,accounts⟩
      rw [(fileMap_set now ⟨none,0,emptyRoot⟩ cut.sb).1]
      rfl

end Unlink

theorem mem_free {sb : SuperBlock} {b : Nat} : b ∈ sb.free ↔
    ∃ fl ∈ sb.freeLists ++ [sb.sharedFreeList], ∃ n ∈ fl.blockFreeTree, n.rangeLow ≤ b ∧ b ≤ n.rangeHigh := by
  rw [SuperBlock.free,Multiset.mem_add,mem_sum_map]
  simp only [FreeList.free,mem_rangeBlocks,mem_append,mem_singleton,or_and_right,exists_or,exists_eq_left]

instance (sb : SuperBlock) (b : Nat) : Decidable (b ∈ sb.free) := decidable_of_iff' _ mem_free

theorem mapped_within {inum bound : Nat} (found : fs.inodes[inum]? = some inode)
    (all : ∀ e ∈ extents inode.root.node, e.eeBlock + e.eeLen ≤ bound) (b : Nat) (mapped : fs.fileMap inum b ≠ none) :
    b < bound := by
  rw [fileMap_eq found] at mapped
  obtain ⟨p,maps⟩ := ne_none_iff_exists'.mp mapped
  obtain ⟨e,member,inside,_⟩ := blockMap_owned maps
  have last := all e member
  have range := covers_iff.mp inside
  omega

def holedFile : List Action :=
  [.digest 0 (.file 1 0 (2 * gBlockSizeBytes) 1001),.digest 0 (.file 1 (5 * gBlockSizeBytes) gBlockSizeBytes 1010)]

theorem unlink_returns_blocks_holed : ∃ fs fs', run step (KernFs.emptyFiles 64 8 1000 1 2) holedFile = some fs ∧
    fs.fileMap 1 5 ≠ none ∧ digestUnlink fs 1 = some fs' ∧ fs'.sb.free = fs.sb.free + fs.ownBlocks 1 := by
  have guarded : Guarded step (fun fs action => DataAction fs action ∧ DataOk fs action)
      (KernFs.emptyFiles 64 8 1000 1 2) holedFile := by decide +kernel
  obtain ⟨fs,reached,mapped,inode,found,size,ends⟩ : ∃ fs, run step (KernFs.emptyFiles 64 8 1000 1 2) holedFile = some fs ∧
      fs.fileMap 1 5 ≠ none ∧ ∃ inode : Inode, fs.inodes[1]? = some inode ∧ inode.size = 6 * gBlockSizeBytes ∧
        ∀ e ∈ extents inode.root.node, e.eeBlock + e.eeLen ≤ 6 := by decide +kernel
  have formed : Formed fs :=
    run_formed (emptyFiles_formed 2 (by decide) (by decide) (by decide) (by decide)) guarded reached
  have released : Released fs 1 inode.size := by
    rw [size]
    exact ⟨fun none_ => absurd none_ (by decide),fun _ => ⟨by decide,fun b mapped =>
      Nat.le_of_lt_succ (mapped_within found ends b mapped)⟩⟩
  obtain ⟨fs',unlinked,_,free⟩ := (unlink_returns_blocks_iff fs formed 1 inode found).mpr released
  exact ⟨fs,fs',reached,mapped,unlinked,free⟩

-- A file of 5000 bytes is removed, and the block of its last 904 bytes stays allocated.
theorem unlink_loses_last_block :
    ∃ fs fs', run step (KernFs.emptyFiles 589854 27106 616960 5 2)
        [.digest 0 (.file 1 0 4096 616970),.digest 0 (.file 1 4096 904 616971)] = some fs ∧
      fs.label 1 = some (some .file,5000) ∧ fs.fileMap 1 0 = some 27106 ∧ fs.fileMap 1 1 = some 27107 ∧
      digestUnlink fs 1 = some fs' ∧ fs'.label 1 = some (none,0) ∧ fs'.fileMap 1 1 = none ∧
      27106 ∈ fs'.sb.free ∧ 27107 ∉ fs'.sb.free := by decide +kernel

def blocksFor (size : Nat) : Nat := size / gBlockSizeBytes + if size % gBlockSizeBytes ≠ 0 then 1 else 0

def RangeFits (fs : KernFs) (inum old new : Nat) : Prop :=
  old / gBlockSizeBytes % 2 ^ 32 < extMaxBlocks - 1 ∧ ∀ b, fs.fileMap inum b ≠ none →
    (blocksFor new % 2 ^ 32 ≤ b ∧ b ≤ old / gBlockSizeBytes % 2 ^ 32 ↔ blocksFor new ≤ b)

structure CutTo (fs fs' : KernFs) (inum size : Nat) : Prop where
  kept : ∀ b, fs'.fileMap inum b = if b < blocksFor size then fs.fileMap inum b else none
  freed : ∀ b p, fs.fileMap inum b = some p → blocksFor size ≤ b → p ∈ fs'.sb.free

section Shorten
variable {fs : KernFs} {inum size : Nat} {inode : Inode}

theorem inode_parts {fs' : KernFs} {itype : Option FileType} (found : fs.inodes[inum]? = some inode)
    (file : inode.itype = some .file) (smaller : size < inode.size) :
    digestInode fs inum itype size = some fs' ↔
      ∃ cut inode', fs.truncate inum (blocksFor size) (inode.size / gBlockSizeBytes) = some cut ∧
        cut.inodes[inum]? = some inode' ∧ fs' = {cut with inodes := cut.inodes.set inum {inode' with size := size}} := by
  have same : fs.inodes.set inum inode = fs.inodes := by
    obtain ⟨inside,rfl⟩ := List.getElem?_eq_some_iff.mp found
    exact set_getElem_self inside
  have typed : inode.occupy itype = inode := by
    unfold Inode.occupy
    exact if_neg (by rw [file]; simp)
  simp only [digestInode,found,typed,same,bind_eq_bind,bind_some,bind_eq_some_iff,Option.some.injEq]
  rw [KernFs.shorten,if_pos ⟨file,smaller⟩]
  constructor
  · rintro ⟨cut,done,inode',now,rfl⟩
    exact ⟨cut,inode',done,now,rfl⟩
  · rintro ⟨cut,inode',done,now,rfl⟩
    exact ⟨cut,done,inode',now,rfl⟩

theorem smaller_size_cuts_file (fs : KernFs) (formed : Formed fs) (inum : Nat) (inode : Inode)
    (found : fs.inodes[inum]? = some inode) (file : inode.itype = some .file) (itype : Option FileType) (size : Nat)
    (smaller : size < inode.size) :
    ((∃ fs', digestInode fs inum itype size = some fs' ∧ CutTo fs fs' inum size) → RangeFits fs inum inode.size size) ∧
    (RangeFits fs inum inode.size size →
      inode.size / gBlockSizeBytes < 2 ^ 32 ∨ inode.root.ehDepth + 2 < fs.sb.free.card →
      ∃ fs', digestInode fs inum itype size = some fs' ∧ CutTo fs fs' inum size) := by
  simp only [inode_parts found file smaller]
  constructor
  · rintro ⟨fs',⟨cut,inode',done,now,rfl⟩,kept,_⟩
    refine ⟨truncate_bound done,fun b mapped => ?_⟩
    obtain ⟨_,punched,_⟩ := truncate_account formed done
    have same := kept b
    rw [(fileMap_set now {inode' with size := size} cut.sb).1] at same
    change blockMap (extents inode'.root.node) b = _ at same
    rw [←fileMap_eq now,punched,punch] at same
    split at same
    · rename_i removed
      refine iff_of_true removed (Nat.le_of_not_lt fun below => mapped ?_)
      rw [if_pos below] at same
      exact same.symm
    · rename_i stays
      refine iff_of_false stays fun above => mapped ?_
      rw [if_neg (by omega)] at same
      exact same
  · rintro ⟨bound,fits⟩ space
    have room : fs.fileMap inum (inode.size / gBlockSizeBytes % 2 ^ 32 + 1) = none ∨ inode.root.ehDepth + 2 < fs.sb.free.card := by
      refine space.imp_left fun short => ?_
      -- The block behind the old end is not below the new one, so it would have to be in the range.
      rw [Nat.mod_eq_of_lt short] at fits ⊢
      by_contra mapped
      have reach : blocksFor size ≤ inode.size / gBlockSizeBytes + 1 := by
        have order : size / gBlockSizeBytes ≤ inode.size / gBlockSizeBytes := Nat.div_le_div_right (le_of_lt smaller)
        unfold blocksFor
        split <;> omega
      have inside := (fits _ mapped).mpr reach
      omega
    obtain ⟨cut,done⟩ := truncate_returns (blocksFor size) formed found bound room
    obtain ⟨_,punched,_,freed⟩ := truncate_account formed done
    have kept : ∀ b, cut.fileMap inum b = if b < blocksFor size then fs.fileMap inum b else none := by
      intro b
      rw [punched,punch]
      by_cases mapped : fs.fileMap inum b = none
      · rw [mapped,ite_self,ite_self]
      · by_cases above : blocksFor size ≤ b
        · rw [if_pos ((fits b mapped).mpr above),if_neg (by omega)]
        · rw [if_neg fun removed => above ((fits b mapped).mp removed),if_pos (by omega)]
    obtain ⟨old,now⟩ := truncate_inode done
    refine ⟨_,⟨cut,_,done,now,rfl⟩,fun b => ?_,fun b p was above => freed b p was ?_⟩
    · rw [(fileMap_set now {old with size := size} cut.sb).1,←kept,fileMap_eq now]
    · rw [kept,if_neg (by omega)]

end Shorten

theorem smaller_size_cuts_file_same_block : ∃ fs fs' fs'', run step (KernFs.emptyFiles 64 8 1000 1 2) holedFile = some fs ∧
    digestInode fs 1 (some .file) (6 * gBlockSizeBytes - 10) = some fs' ∧ CutTo fs fs' 1 (6 * gBlockSizeBytes - 10) ∧
    digestInode fs 1 (some .file) 5000 = some fs'' ∧ CutTo fs fs'' 1 5000 := by
  have guarded : Guarded step (fun fs action => DataAction fs action ∧ DataOk fs action)
      (KernFs.emptyFiles 64 8 1000 1 2) holedFile := by decide +kernel
  obtain ⟨fs,reached,inode,found,file,size,ends⟩ : ∃ fs, run step (KernFs.emptyFiles 64 8 1000 1 2) holedFile = some fs ∧
      ∃ inode : Inode, fs.inodes[1]? = some inode ∧ inode.itype = some .file ∧ inode.size = 6 * gBlockSizeBytes ∧
        ∀ e ∈ extents inode.root.node, e.eeBlock + e.eeLen ≤ 6 := by decide +kernel
  have formed : Formed fs :=
    run_formed (emptyFiles_formed 2 (by decide) (by decide) (by decide) (by decide)) guarded reached
  have fits : ∀ new, blocksFor new < 2 ^ 32 → RangeFits fs 1 inode.size new := by
    intro new small
    rw [size]
    refine ⟨by decide,fun b mapped => ?_⟩
    have last := mapped_within found ends b mapped
    rw [Nat.mod_eq_of_lt small]
    exact and_iff_left (le_of_lt last)
  have cut := fun new smaller => (smaller_size_cuts_file fs formed 1 inode found file (some .file) new smaller).2
  have short : inode.size / gBlockSizeBytes < 2 ^ 32 := by rw [size]; decide
  obtain ⟨fs',done,result⟩ := cut (6 * gBlockSizeBytes - 10) (by rw [size]; decide) (fits _ (by decide)) (Or.inl short)
  obtain ⟨fs'',done',result'⟩ := cut 5000 (by rw [size]; decide) (fits _ (by decide)) (Or.inl short)
  exact ⟨fs,fs',fs'',reached,done,result,done',result'⟩

-- A file of 100 bytes gets 4 blocks from a fallocate and is cut to 50 bytes: blocks 1 to 3 stay mapped.
theorem shorter_file_keeps_blocks :
    ∃ fs fs', run step (KernFs.emptyFiles 589854 27106 616960 5 2)
        [.digest 0 (.file 1 0 100 616970),.digest 0 (.alloc 1 16384)] = some fs ∧
      fs.label 1 = some (some .file,100) ∧ fs.fileMap 1 3 = some 27109 ∧ digestInode fs 1 (some .file) 50 = some fs' ∧
      fs'.label 1 = some (some .file,50) ∧ fs'.fileMap 1 3 = some 27109 ∧ 27109 ∉ fs'.sb.free := by decide +kernel

end Assise.Digest
