import Assise.DigestOwnership
import Assise.FileMap

-- Files and logs as their readers see them: blocks of bytes found through the extent trees and the
-- map table, and what each change of a digest does to them.
namespace Assise.Digest

open Balloc Extents MapTable FileMap Lib.Runs Lib.Spans Option List
open LogRing (gLogSize)

def KernFs.view (fs : KernFs) (b : Nat) : Nat → UInt8 := fs.disk (fs.home b)

def KernFs.fileMap (fs : KernFs) (inum : Nat) : BlockMap := fun b =>
  fs.inodes[inum]?.bind fun inode => blockMap (extents inode.root.node) b

def KernFs.cell (fs : KernFs) (inum b o : Nat) : Option UInt8 := (fs.fileMap inum b).map fun p => fs.view p o

-- What every digest keeps: trees are search trees, each block has one use, the map table permutes.
structure Formed (fs : KernFs) : Prop where
  trees : ∀ inode ∈ fs.inodes, TreeOk inode.root
  device : ∃ lost, Working fs.sb (lost + fs.dataBlocks + fs.treeBlocks)
  layout : mlfsExtSpaceRoot < fs.sb.reservedBlocks
  area : fs.sb.numBlocks ≤ fs.logStart
  mapped : ∃ n σ, Mapped fs n σ

variable {b p : Nat}

variable {fs : KernFs} {inum : Nat}

theorem fileMap_some (mapped : fs.fileMap inum b = some p) :
    ∃ inode, fs.inodes[inum]? = some inode ∧ blockMap (extents inode.root.node) b = some p :=
  bind_eq_some_iff.mp mapped

theorem fileMap_eq {inode : Inode} (found : fs.inodes[inum]? = some inode) :
    fs.fileMap inum = blockMap (extents inode.root.node) := by
  funext b
  rw [KernFs.fileMap,found,bind_some]

theorem fileMap_set {inode : Inode} (found : fs.inodes[inum]? = some inode)
    (inode' : Inode) (sb : SuperBlock) :
    ({fs with sb := sb,inodes := fs.inodes.set inum inode'} : KernFs).fileMap inum =
      blockMap (extents inode'.root.node) ∧
    ∀ j, j ≠ inum → ({fs with sb := sb,inodes := fs.inodes.set inum inode'} : KernFs).fileMap j = fs.fileMap j := by
  have inside : inum < fs.inodes.length := (List.getElem?_eq_some_iff.mp found).1
  constructor
  · apply fileMap_eq
    simp [inside]
  · intro j other
    funext b
    simp only [KernFs.fileMap]
    rw [getElem?_set_ne (Ne.symm other)]

theorem blockMap_owned {es : List Extent} (mapped : blockMap es b = some p) :
    ∃ e ∈ es, covers b e = true ∧ p = e.eeStart + (b - e.eeBlock) ∧ p ∈ span e.eeStart e.eeLen := by
  obtain ⟨e,found,rfl⟩ := map_eq_some_iff.mp mapped
  have here := covers_iff.mp (find?_some found)
  exact ⟨e,mem_of_find?_eq_some found,find?_some found,rfl,mem_span.mpr (by omega)⟩

theorem blockMap_injective {es : List Extent} {c : Nat} (own : (extentBlocks es).Nodup) (first : blockMap es b = some p)
    (second : blockMap es c = some p) : b = c := by
  obtain ⟨e,memberE,coversE,startE,insideE⟩ := blockMap_owned first
  obtain ⟨f,memberF,coversF,startF,insideF⟩ := blockMap_owned second
  obtain ⟨m,boundM,atM⟩ := getElem_of_mem memberE
  obtain ⟨n,boundN,atN⟩ := getElem_of_mem memberF
  have alike : m = n := sum_map_apart own (List.getElem?_eq_some_iff.mpr ⟨boundM,atM⟩)
    (List.getElem?_eq_some_iff.mpr ⟨boundN,atN⟩) insideE insideF
  subst alike
  rw [atM] at atN
  subst atN
  rw [covers_iff] at coversE coversF
  omega

theorem fileMap_owned (mapped : fs.fileMap inum b = some p) : p ∈ fs.dataBlocks := by
  obtain ⟨inode,found,mapped⟩ := fileMap_some mapped
  obtain ⟨e,member,_,_,inside⟩ := blockMap_owned mapped
  exact mem_dataBlocks found (mem_extentBlocks member (mem_span.mp inside))

section Formed
variable {fs : KernFs}

theorem Formed.owned (formed : Formed fs) : Owned fs := by
  obtain ⟨lost,working⟩ := formed.device
  exact ⟨⟨lost,working.toBalanced⟩,formed.area,formed.mapped⟩

theorem Formed.fileMap_injective (formed : Formed fs) {i j c : Nat} (first : fs.fileMap i b = some p)
    (second : fs.fileMap j c = some p) : i = j ∧ b = c := by
  obtain ⟨inodeI,foundI,mappedI⟩ := fileMap_some first
  obtain ⟨inodeJ,foundJ,mappedJ⟩ := fileMap_some second
  obtain ⟨_,memberE,_,_,insideE⟩ := blockMap_owned mappedI
  obtain ⟨_,memberF,_,_,insideF⟩ := blockMap_owned mappedJ
  have once := formed.owned.dataBlocks_nodup
  have same : i = j := sum_map_apart once foundI foundJ (mem_extentBlocks memberE (mem_span.mp insideE))
    (mem_extentBlocks memberF (mem_span.mp insideF))
  subst same
  cases foundI.symm.trans foundJ
  have own : (extentBlocks (extents inodeI.root.node)).Nodup := by
    obtain ⟨rest,sum,_⟩ := sum_map_set (fun inode : Inode => extentBlocks (extents inode.root.node)) foundI
    rw [KernFs.dataBlocks,sum] at once
    exact (Multiset.nodup_add.mp once).2.1
  exact ⟨rfl,blockMap_injective own mappedI mappedJ⟩

theorem Formed.below (formed : Formed fs) (data : p ∈ fs.dataBlocks) : p < fs.logStart :=
  formed.owned.below (Or.inl data)

end Formed

def splice (old new : Nat → UInt8) (offset size : Nat) : Nat → UInt8 := fun o =>
  if offset ≤ o ∧ o < offset + size then new o else old o

section Views
variable {fs : KernFs} {k l : Nat}

theorem Owned.view_swap (owned : Owned fs) (data : k ∈ fs.dataBlocks) (log : fs.InLogs l)
    (inside : b < fs.logStart + fs.logs * gLogSize) :
    ({fs with map := updateMapTable table fs.map k l} : KernFs).view b = fs.view (Equiv.swap k l b) :=
  congrArg fs.disk ((owned.swap data log).2 b inside)

theorem Owned.view_copy (owned : Owned fs) {fs' : KernFs} {offset size : Nat} (data : k ∈ fs.dataBlocks)
    (log : fs.InLogs l) (done : fs.copyBlock l k offset size = some fs') :
    Owned fs' ∧ fs'.inodes = fs.inodes ∧ fs'.logStart = fs.logStart ∧ fs'.logs = fs.logs ∧ fs'.sb = fs.sb ∧
      fs'.view k = splice (fs.view k) (fs.view l) offset size ∧
      ∀ b < fs.logStart + fs.logs * gLogSize, b ≠ k → fs'.view b = fs.view b := by
  have low := owned.below (Or.inl data)
  have boundK : k < fs.logStart + fs.logs * gLogSize := by omega
  obtain ⟨_,rfl⟩ := copyBlock_parts done
  obtain ⟨owned',kept⟩ := owned.copy (copyBytes fs.disk (lblk2pblk table (lblk2pblk table fs.map k).2 l).1
    (lblk2pblk table fs.map k).1 offset size) data log
  have source : (lblk2pblk table (lblk2pblk table fs.map k).2 l).1 = fs.home l :=
    (lblk2pblk_home table _ l).trans ((owned.lookup boundK fs.disk).2 l log.2)
  have target : (lblk2pblk table fs.map k).1 = fs.home k := lblk2pblk_home table fs.map k
  refine ⟨owned',rfl,rfl,rfl,rfl,?_,fun b inside other => ?_⟩
  · funext o
    unfold KernFs.view
    rw [kept k boundK,source,target]
    simp only [copyBytes,splice,true_and]
  · funext o
    unfold KernFs.view
    rw [kept b inside,source,target]
    simp only [copyBytes]
    rw [if_neg]
    rintro ⟨same,_⟩
    exact other (owned.injective inside boundK same)

theorem Owned.view_write (owned : Owned fs) {libfsId blk : Nat} (own : fs.OwnLog libfsId blk) (offset size : Nat)
    (bytes : Nat → UInt8) :
    (logWrite fs blk offset size bytes).view blk = splice (fs.view blk) bytes offset size ∧
      ∀ b < fs.logStart + fs.logs * gLogSize, b ≠ blk → (logWrite fs blk offset size bytes).view b = fs.view b := by
  have boundBlk := own.inLogs.2
  obtain ⟨_,kept⟩ := owned.write own offset size bytes
  have target : (lblk2pblk table fs.map blk).1 = fs.home blk := lblk2pblk_home table fs.map blk
  constructor
  · funext o
    unfold KernFs.view
    rw [kept blk boundBlk]
    simp only [logWrite,target,true_and,splice]
  · intro b inside other
    funext o
    unfold KernFs.view
    rw [kept b inside]
    simp only [logWrite,target]
    rw [if_neg]
    rintro ⟨same,_⟩
    exact other (owned.injective inside boundBlk same)

-- No buffer that waits to be written lies where a data block or a log block has its home.
def FlushApart (fs : KernFs) : Prop :=
  ∀ b ∈ fs.sb.bdBhDirty, ∀ c, c ∈ fs.dataBlocks ∨ fs.InLogs c → fs.home c ≠ b

theorem view_flush (apart : FlushApart fs) (rest : Disk) (referenced : List Nat)
    (used : b ∈ fs.dataBlocks ∨ fs.InLogs b) : (syncAllBuffers fs rest referenced).view b = fs.view b := by
  funext o
  refine if_neg ?_
  rintro ⟨listed,_⟩
  exact apart _ listed b used rfl

theorem Formed.transfer {fs' : KernFs} (formed : Formed fs) (owned : Owned fs') (inodes : fs'.inodes = fs.inodes)
    (sb : fs'.sb = fs.sb) : Formed fs' := by
  refine ⟨by rw [inodes]; exact formed.trees,?_,by rw [sb]; exact formed.layout,owned.area,owned.mapped⟩
  obtain ⟨lost,working⟩ := formed.device
  refine ⟨lost,?_⟩
  unfold KernFs.dataBlocks KernFs.treeBlocks
  rw [inodes,sb]
  exact working

theorem Formed.flush (formed : Formed fs) (rest : Disk) (referenced : List Nat) :
    Formed (syncAllBuffers fs rest referenced) := by
  obtain ⟨lost,working⟩ := formed.device
  exact { formed with device := ⟨lost,{ working with }⟩,mapped := Mapped.transfer formed.mapped rfl rfl rfl }

end Views

structure Mapping (fs fs' : KernFs) (inum mLblk mLen : Nat) (map : MapResult) : Prop where
  positive : 0 < map.ret
  most : map.ret ≤ mLen
  found : ∀ i < map.ret, fs'.fileMap inum (mLblk + i) = some (map.mPblk + i)
  kept : ∀ j b p, fs.fileMap j b = some p → fs'.fileMap j b = some p
  others : ∀ j, j ≠ inum → fs'.fileMap j = fs.fileMap j
  fresh : ∀ b p, fs'.fileMap inum b = some p → fs.fileMap inum b = some p ∨
    fs.fileMap inum b = none ∧ (mLblk ≤ b ∧ b < mLblk + map.ret) ∧ p ∈ fs.sb.free
  same : fs'.map = fs.map ∧ fs'.disk = fs.disk ∧ fs'.logStart = fs.logStart ∧ fs'.logs = fs.logs

-- The call starts at a block a tree can hold and does not run into mapped blocks behind its start.
def CallOk : CallCondition := fun fs inum mLblk mLen =>
  mLblk < extMaxBlocks ∧ ReachesNoLaterBlock (fs.fileMap inum) mLblk mLen

section Trees
variable {fs fs' : KernFs} {inum : Nat} {inode : Inode}

theorem Formed.consistent (formed : Formed fs) (found : fs.inodes[inum]? = some inode) :
    ∃ held, Consistent held ⟨fs.sb,inode.root⟩ ∧ ∀ (root : ExtRoot) (sb : SuperBlock),
      Consistent held ⟨sb,root⟩ → sb.numBlocks = fs.sb.numBlocks →
        Formed {fs with sb := sb,inodes := fs.inodes.set inum {inode with root := root}} := by
  obtain ⟨lost,working⟩ := formed.device
  obtain ⟨data,held,dataSum,treeSum,after⟩ := set_blocks found
  have regroup : ∀ a b : Multiset Nat, lost + (data + a) + (held + b) = lost + data + held + (a + b) := by
    intro a b
    abel
  refine ⟨lost + data + held,⟨formed.trees inode (mem_of_getElem? found),?_,formed.layout⟩,?_⟩
  · rw [dataSum,treeSum,regroup] at working
    exact working
  · intro root sb consistent blocks
    obtain ⟨data',tree'⟩ := after {inode with root := root} sb
    refine ⟨fun other member => ?_,⟨lost,?_⟩,consistent.layout,?_,Mapped.transfer formed.mapped rfl rfl rfl⟩
    · rcases mem_or_eq_of_mem_set member with old | rfl
      · exact formed.trees other old
      · exact consistent.tree
    · rw [data',tree',regroup]
      exact consistent.device
    · simp only [blocks]
      exact formed.area

variable {mLen : Nat} {map : MapResult}

theorem Formed.create {mLblk : Nat} (formed : Formed fs) (asked : 0 < mLen)
    (short : mLen ≤ extInitMaxLen) (ok : CallOk fs inum mLblk mLen)
    (done : fs.getBlocks inum mLblk mLen = some (map,fs')) :
    Formed fs' ∧ Mapping fs fs' inum mLblk mLen map := by
  obtain ⟨inside,reach⟩ := ok
  have whole : mLblk % 2 ^ 32 = mLblk := Nat.mod_eq_of_lt (inside.trans (by decide))
  obtain ⟨inode,root,sb,found,got,rfl⟩ := getBlocks_parts done
  rw [whole] at got
  obtain ⟨held,consistent,rebuilt⟩ := formed.consistent found
  have here := fileMap_eq found
  rw [here] at reach
  obtain ⟨result,root',sb',got',after,hit,fresh⟩ := create_ok consistent asked short inside reach
    (Or.inr (by simp only [got,isSome_some]))
  cases got.symm.trans got'
  have blocks : sb.numBlocks = fs.sb.numBlocks := by
    obtain ⟨lost,working⟩ := formed.device
    rcases create_cases done with same | ⟨sb₁,created⟩
    · exact congrArg (fun fs : KernFs => fs.sb.numBlocks) same
    · obtain ⟨taken,balanced⟩ := created_balanced working.toBalanced created
      exact (taken.device.trans ((created.moves _).sameDevice balanced)).2.1
  obtain ⟨mine,others⟩ := fileMap_set found {inode with root := root} sb
  refine ⟨rebuilt root sb after blocks,?_⟩
  by_cases unmapped : blockMap (extents inode.root.node) mLblk = none
  · have new := fresh unmapped
    simp only [File.map] at new
    have extended := new.extended
    refine ⟨new.positive,new.most,fun i bound => ?_,fun j b p before => ?_,others,fun b p now => ?_,rfl,rfl,rfl,rfl⟩
    · rw [mine,extended,extend,if_pos (by omega),Nat.add_sub_cancel_left]
    · by_cases own : j = inum
      · subst own
        rw [here] at before
        rw [mine,extended,extend,if_neg]
        · exact before
        · intro range
          have gap := new.unmapped (b - mLblk) (by omega)
          rw [Nat.add_sub_cancel' range.1,before] at gap
          cases gap
      · rw [others j own]
        exact before
    · rw [mine,extended,extend] at now
      split at now
      · rename_i range
        cases now
        refine Or.inr ⟨?_,range,new.free _ (by omega)⟩
        have gap := new.unmapped (b - mLblk) (by omega)
        rw [Nat.add_sub_cancel' range.1] at gap
        rw [here]
        exact gap
      · rw [here]
        exact Or.inl now
  · obtain ⟨reply,unchanged⟩ := hit unmapped
    simp only [File.map] at reply unchanged
    refine ⟨reply.positive,reply.most,fun i bound => ?_,fun j b p before => ?_,others,fun b p now => ?_,
      rfl,rfl,rfl,rfl⟩
    · rw [mine,unchanged]
      exact reply.agrees i bound
    · by_cases own : j = inum
      · subst own
        rw [mine,unchanged,←here]
        exact before
      · rw [others j own]
        exact before
    · rw [mine,unchanged,←here] at now
      exact Or.inl now

theorem Formed.truncate {start stop : Nat} (formed : Formed fs) (bound : stop < extMaxBlocks - 1)
    (whole : start % 2 ^ 32 = start) (done : fs.truncate inum start stop = some fs') :
    Formed fs' ∧ fs'.fileMap inum = punch (fs.fileMap inum) start stop ∧
      (∀ j, j ≠ inum → fs'.fileMap j = fs.fileMap j) ∧
      fs'.map = fs.map ∧ fs'.disk = fs.disk ∧ fs'.logStart = fs.logStart ∧ fs'.logs = fs.logs := by
  have wholeStop : stop % 2 ^ 32 = stop := Nat.mod_eq_of_lt (bound.trans (by decide))
  obtain ⟨inode,root,sb,found,got,rfl⟩ := truncate_parts done
  rw [whole,wholeStop] at got
  obtain ⟨held,consistent,rebuilt⟩ := formed.consistent found
  have returned : (mlfsExtTruncate inode.root start stop fs.sb).isSome = true := by simp only [got,isSome_some]
  obtain ⟨root',sb',got',ok,punched⟩ := truncate_ok consistent bound (Or.inr returned)
  cases got.symm.trans got'
  have after := consistent.truncated got ok
  have blocks : sb.numBlocks = fs.sb.numBlocks := by
    obtain ⟨device,middle,cut,returned⟩ := consistent.truncate_moves got
    exact ((cut.sameDevice device.toBalanced).trans (returned.sameDevice (cut.balanced device.toBalanced))).2.1
  obtain ⟨mine,others⟩ := fileMap_set found {inode with root := root} sb
  refine ⟨rebuilt root sb after blocks,?_,others,rfl,rfl,rfl,rfl⟩
  rw [mine,punched,fileMap_eq found]
  rfl

theorem Formed.setInode {inode' : Inode} (formed : Formed fs) (found : fs.inodes[inum]? = some inode)
    (root : inode'.root = inode.root ∨ inode'.root = emptyRoot) :
    Formed {fs with inodes := fs.inodes.set inum inode'} := by
  obtain ⟨lost,working⟩ := formed.device
  obtain ⟨lost',sum⟩ := setInode_account found root lost
  refine ⟨fun other member => ?_,⟨lost',sum ▸ working⟩,formed.layout,formed.area,
    Mapped.transfer formed.mapped rfl rfl rfl⟩
  rcases mem_or_eq_of_mem_set member with old | rfl
  · exact formed.trees other old
  · rcases root with same | empty
    · rw [same]
      exact formed.trees inode (mem_of_getElem? found)
    · rw [empty]
      exact ⟨Or.inl rfl,⟨fun _ member => absurd member not_mem_nil,.nil⟩⟩

end Trees

def KernFs.label (fs : KernFs) (inum : Nat) : Option (Option FileType × Nat) :=
  fs.inodes[inum]?.map fun inode => (inode.itype,inode.size)

structure Moved (fs fs' : KernFs) (inum first l count : Nat) : Prop where
  formed : Formed fs'
  logs : fs'.logStart = fs.logStart ∧ fs'.logs = fs.logs
  labels : ∀ j, fs'.label j = fs.label j
  written : ∀ i < count, ∀ o, fs'.cell inum (first + i) o = some (fs.view (l + i) o)
  kept : ∀ b, ¬ (first ≤ b ∧ b < first + count) → fs'.cell inum b = fs.cell inum b
  others : ∀ j, j ≠ inum → fs'.cell j = fs.cell j
  log : ∀ m, fs.InLogs m → ¬ (l ≤ m ∧ m < l + count) → fs'.view m = fs.view m

theorem cell_congr {fs fs' : KernFs} (map : fs'.fileMap inum b = fs.fileMap inum b)
    (views : ∀ p, fs.fileMap inum b = some p → fs'.view p = fs.view p) : fs'.cell inum b = fs.cell inum b := by
  funext o
  rw [KernFs.cell,KernFs.cell,map]
  cases found : fs.fileMap inum b with
  | none => rfl
  | some p => rw [map_some,map_some,views p found]

theorem cell_of_fileMap (found : fs.fileMap inum b = some p) (o : Nat) :
    fs.cell inum b o = some (fs.view p o) := by
  rw [KernFs.cell,found,map_some]

section Moved
variable {fs fs' fs₁ fs₂ : KernFs} {inum first l count : Nat}

theorem Moved.refl (formed : Formed fs) : Moved fs fs inum first l 0 :=
  ⟨formed,⟨rfl,rfl⟩,fun _ => rfl,fun _ bound => absurd bound (Nat.not_lt_zero _),fun _ _ => rfl,fun _ _ => rfl,
    fun _ _ _ => rfl⟩

theorem Moved.trans {more : Nat} (early : Moved fs fs₁ inum first l count)
    (late : Moved fs₁ fs₂ inum (first + count) (l + count) more) (log : ∀ i < count + more, fs.InLogs (l + i)) :
    Moved fs fs₂ inum first l (count + more) := by
  refine ⟨late.formed,⟨late.logs.1.trans early.logs.1,late.logs.2.trans early.logs.2⟩,
    fun j => (late.labels j).trans (early.labels j),fun i bound o => ?_,fun b outside => ?_,
    fun j other => (late.others j other).trans (early.others j other),fun m inside unused => ?_⟩
  · by_cases done : i < count
    · rw [late.kept (first + i) (by omega)]
      exact early.written i done o
    · have rest := late.written (i - count) (by omega) o
      have place : first + count + (i - count) = first + i := by omega
      have source : l + count + (i - count) = l + i := by omega
      rw [place,source,early.log (l + i) (log i bound) (by omega)] at rest
      exact rest
  · rw [late.kept b (by omega),early.kept b (by omega)]
  · rw [late.log m (inside.transfer early.logs) (by omega),early.log m inside (by omega)]

theorem Formed.swap_moved {k : Nat} (formed : Formed fs) (found : fs.fileMap inum first = some k) (log : fs.InLogs l) :
    Moved fs {fs with map := updateMapTable table fs.map k l} inum first l 1 := by
  have data := fileMap_owned found
  have formed' : Formed {fs with map := updateMapTable table fs.map k l} :=
    formed.transfer (formed.owned.swap data log).1 rfl rfl
  have views : ∀ b < fs.logStart + fs.logs * gLogSize, _ = _ := fun b inside => formed.owned.view_swap data log inside
  have low : fs.logStart ≤ l := log.1
  have top : l < fs.logStart + fs.logs * gLogSize := log.2
  -- Another data block is neither of the two.
  have still : ∀ j b p, fs.fileMap j b = some p → ¬ (j = inum ∧ b = first) →
      ({fs with map := updateMapTable table fs.map k l} : KernFs).view p = fs.view p := by
    intro j b p mapped other
    have below := formed.below (fileMap_owned mapped)
    have notK : p ≠ k := by
      rintro rfl
      exact other (formed.fileMap_injective mapped found)
    rw [views p (by omega),Equiv.swap_apply_of_ne_of_ne notK (by omega)]
  refine ⟨formed',⟨rfl,rfl⟩,fun _ => rfl,fun i bound o => ?_,fun b outside => ?_,fun j other => ?_,fun m inside unused => ?_⟩
  · have zero : i = 0 := by omega
    subst zero
    have below := formed.below data
    have now : ({fs with map := updateMapTable table fs.map k l} : KernFs).fileMap inum (first + 0) = some k := found
    rw [cell_of_fileMap now o,views k (by omega),Equiv.swap_apply_left,add_zero]
  · exact cell_congr rfl fun p mapped => still inum b p mapped (by omega)
  · funext b
    exact cell_congr rfl fun p mapped => still j b p mapped fun both => other both.1
  · have below := formed.below data
    have range : fs.logStart ≤ m := inside.1
    rw [views m inside.2,Equiv.swap_apply_of_ne_of_ne (by omega) (by omega)]

theorem Formed.swaps_moved {k : Nat} (formed : Formed fs) (found : ∀ i < count, fs.fileMap inum (first + i) = some (k + i))
    (log : ∀ i < count, fs.InLogs (l + i)) :
    Moved fs {fs with map := updateMapTables fs.map k l count} inum first l count := by
  induction count with
  | zero => exact .refl formed
  | succ count ih =>
    have early := ih (fun i bound => found i (by omega)) (fun i bound => log i (by omega))
    have last := early.formed.swap_moved (found count (by omega)) (log count (by omega))
    exact early.trans last log

variable {mLen : Nat} {map : MapResult}

theorem Mapping.views (mapping : Mapping fs fs₁ inum first mLen map) :
    fs₁.view = fs.view := by
  obtain ⟨table,disk,_,_⟩ := mapping.same
  funext b
  simp only [KernFs.view,KernFs.home,table,disk]

theorem Mapping.outside (mapping : Mapping fs fs₁ inum first mLen map)
    (out : ¬ (first ≤ b ∧ b < first + map.ret)) : fs₁.fileMap inum b = fs.fileMap inum b := by
  cases before : fs.fileMap inum b with
  | some p => exact mapping.kept inum b p before
  | none =>
    cases now : fs₁.fileMap inum b with
    | none => rfl
    | some p =>
      rcases mapping.fresh b p now with old | ⟨_,range,_⟩
      · rw [before] at old
        cases old
      · exact absurd range out

theorem Mapping.others_cell {map : MapResult} (mapping : Mapping fs fs₁ inum first mLen map) {j : Nat}
    (other : j ≠ inum) : fs₁.cell j = fs.cell j := by
  funext b
  exact cell_congr (congrFun (mapping.others j other) b) fun p _ => congrFun mapping.views p

theorem Mapping.moved (mapping : Mapping fs fs₁ inum first mLen map)
    (labels : ∀ j, fs₁.label j = fs.label j) (moved : Moved fs₁ fs₂ inum first l map.ret) :
    Moved fs fs₂ inum first l map.ret := by
  obtain ⟨_,_,start,logs⟩ := mapping.same
  refine ⟨moved.formed,⟨moved.logs.1.trans start,moved.logs.2.trans logs⟩,fun j => (moved.labels j).trans (labels j),
    fun i bound o => ?_,fun b out => ?_,fun j other => (moved.others j other).trans (mapping.others_cell other),
    fun m inside unused => ?_⟩
  · rw [moved.written i bound o,mapping.views]
  · rw [moved.kept b out]
    exact cell_congr (mapping.outside out) fun p _ => congrFun mapping.views p
  · rw [moved.log m (inside.transfer ⟨start,logs⟩) unused,mapping.views]

end Moved

section Labels
variable {fs : KernFs} {inum : Nat} {inode : Inode}

theorem label_eq (found : fs.inodes[inum]? = some inode) : fs.label inum = some (inode.itype,inode.size) := by
  rw [KernFs.label,found]
  rfl

theorem label_set (found : fs.inodes[inum]? = some inode) (inode' : Inode) (sb : SuperBlock) :
    ({fs with sb := sb,inodes := fs.inodes.set inum inode'} : KernFs).label inum = some (inode'.itype,inode'.size) ∧
    ∀ j, j ≠ inum → ({fs with sb := sb,inodes := fs.inodes.set inum inode'} : KernFs).label j = fs.label j := by
  have inside : inum < fs.inodes.length := (List.getElem?_eq_some_iff.mp found).1
  constructor
  · apply label_eq
    simp [inside]
  · intro j other
    simp only [KernFs.label]
    rw [getElem?_set_ne (Ne.symm other)]

variable {mLen : Nat} {map : MapResult}

theorem getBlocks_label {fs' : KernFs} {mLblk : Nat}
    (done : fs.getBlocks inum mLblk mLen = some (map,fs')) : ∀ j, fs'.label j = fs.label j := by
  obtain ⟨inode,root,sb,found,_,rfl⟩ := getBlocks_parts done
  obtain ⟨mine,others⟩ := label_set found {inode with root := root} sb
  intro j
  by_cases own : j = inum
  · subst own
    rw [label_eq found]
    exact mine
  · exact others j own

theorem relabel_cell (found : fs.inodes[inum]? = some inode) (itype : Option FileType) (size : Nat) (j : Nat) :
    ({fs with inodes := fs.inodes.set inum {inode with itype := itype,size := size}} : KernFs).cell j = fs.cell j := by
  obtain ⟨mine,others⟩ := fileMap_set found {inode with itype := itype,size := size} fs.sb
  funext b
  apply cell_congr
  · by_cases own : j = inum
    · subst own
      rw [fileMap_eq found]
      exact congrFun mine b
    · exact congrFun (others j own) b
  · intro p _
    rfl

end Labels

end Assise.Digest
