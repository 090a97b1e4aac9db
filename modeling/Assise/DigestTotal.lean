import Assise.DigestFiles

-- When the digest of an entry goes through, and what it does to the types and sizes of inodes.
namespace Assise.Digest

open Balloc Extents MapTable FileMap Lib.Runs Lib.Spans Option Function
open LogRing (gLogSize)

def KernFs.depth (fs : KernFs) (inum : Nat) : Nat := (fs.inodes[inum]?.map (·.root.ehDepth)).getD 0

def SpaceFor : CallCondition := fun fs inum _ mLen =>
  Room fs.sb .data mLen ∧ fs.depth inum + 2 + mLen < fs.sb.free.card

def SpaceToCut (fs : KernFs) (inum : Nat) : Prop := fs.depth inum + 2 < fs.sb.free.card

def SizeFits (size : Nat) : Prop := size / gBlockSizeBytes < extMaxBlocks - 1

def Contiguous (fs : KernFs) (inum blkLength : Nat) : Prop :=
  ∃ k ≤ blkLength, (∀ b < k, fs.fileMap inum b ≠ none ∧ fs.fileMap inum b = (fs.fileMap inum 0).map (· + b)) ∧
    (∀ b < blkLength, k ≤ b → fs.fileMap inum b = none) ∧
    (k = blkLength ∨ blkLength - k ≤ allocSize ∧ (k = 0 ∨
      (mlfsExtAllocBlocks fs.sb .data (blkLength - k)).map Prod.fst = (fs.fileMap inum 0).map (· + k)))

instance (fs : KernFs) (inum mLblk mLen : Nat) : Decidable (SpaceFor fs inum mLblk mLen) := by
  unfold SpaceFor
  infer_instance

instance (fs : KernFs) (inum : Nat) : Decidable (SpaceToCut fs inum) := by
  unfold SpaceToCut
  infer_instance

instance (size : Nat) : Decidable (SizeFits size) := by
  unfold SizeFits
  infer_instance

instance (fs : KernFs) (inum blkLength : Nat) : Decidable (Contiguous fs inum blkLength) := by
  unfold Contiguous
  infer_instance

theorem SizeFits.mono {small large : Nat} (fits : SizeFits large) (less : small ≤ large) : SizeFits small :=
  lt_of_le_of_lt (Nat.div_le_div_right less) fits

variable {fs : KernFs}

variable {label : Option FileType × Nat} {inum : Nat}

theorem depth_eq {inode : Inode} (found : fs.inodes[inum]? = some inode) :
    fs.depth inum = inode.root.ehDepth := by
  rw [KernFs.depth,found]
  rfl

theorem found_of_label (known : fs.label inum = some label) :
    ∃ inode, fs.inodes[inum]? = some inode ∧ label = (inode.itype,inode.size) := by
  obtain ⟨inode,found,same⟩ := map_eq_some_iff.mp known
  exact ⟨inode,found,same.symm⟩

section Calls
variable {fs : KernFs} {inum : Nat} {label : Option FileType × Nat}

variable {mLblk : Nat} {fs' : KernFs}

theorem getBlocks_total {mLen : Nat} (formed : Formed fs) (known : fs.label inum = some label) (asked : 0 < mLen)
    (short : mLen ≤ extInitMaxLen) (ok : CallOk fs inum mLblk mLen) (space : SpaceFor fs inum mLblk mLen) :
    ∃ map fs', fs.getBlocks inum mLblk mLen = some (map,fs') ∧ Formed fs' ∧ Mapping fs fs' inum mLblk mLen map := by
  obtain ⟨inode,found,_⟩ := found_of_label known
  obtain ⟨inside,reach⟩ := ok
  obtain ⟨room,nodes⟩ := space
  rw [depth_eq found] at nodes
  have whole : mLblk % 2 ^ 32 = mLblk := Nat.mod_eq_of_lt (inside.trans (by decide))
  obtain ⟨held,consistent,_⟩ := formed.consistent found
  have local_ := reach
  rw [fileMap_eq found] at local_
  obtain ⟨map,root,sb,got,_⟩ := create_ok consistent asked short inside local_ (Or.inl ⟨room,nodes⟩)
  have done : fs.getBlocks inum mLblk mLen =
      some (map,{fs with sb := sb,inodes := fs.inodes.set inum {inode with root := root}}) := by
    simp only [KernFs.getBlocks,found,whole,got,bind_eq_bind,bind_some]
  exact ⟨map,_,done,formed.create asked short ⟨inside,reach⟩ done⟩

theorem getBlocks_hit (mLen : Nat) (formed : Formed fs) (asked : 0 < mLen) (inside : mLblk < extMaxBlocks)
    (mapped : fs.fileMap inum mLblk ≠ none) :
    ∃ map, fs.getBlocks inum mLblk mLen = some (map,fs) ∧ Hit (fs.fileMap inum) mLblk mLen map := by
  obtain ⟨p,here⟩ := ne_none_iff_exists'.mp mapped
  obtain ⟨inode,found,_⟩ := fileMap_some here
  have whole : mLblk % 2 ^ 32 = mLblk := Nat.mod_eq_of_lt (inside.trans (by decide))
  obtain ⟨held,consistent,_⟩ := formed.consistent found
  rw [fileMap_eq found] at mapped ⊢
  obtain ⟨map,got,hit⟩ := create_hit consistent asked mapped
  have same : fs.inodes.set inum inode = fs.inodes := by
    obtain ⟨inside,rfl⟩ := List.getElem?_eq_some_iff.mp found
    exact List.set_getElem_self inside
  refine ⟨map,?_,hit⟩
  simp only [KernFs.getBlocks,found,whole,got,bind_eq_bind,bind_some,same]

theorem getBlocks_whole {mLen : Nat} {map : MapResult} (formed : Formed fs) (asked : 0 < mLen)
    (inside : mLblk + mLen ≤ extMaxBlocks) (unmapped : ∀ i < mLen, fs.fileMap inum (mLblk + i) = none)
    (done : fs.getBlocks inum mLblk mLen = some (map,fs')) :
    map.ret = mLen ∧ (mlfsExtAllocBlocks fs.sb .data mLen).map Prod.fst = some map.mPblk := by
  obtain ⟨inode,root,sb,found,got,rfl⟩ := getBlocks_parts done
  have small : mLblk < 2 ^ 32 := lt_of_lt_of_le (show mLblk < extMaxBlocks by omega) (by decide)
  rw [Nat.mod_eq_of_lt small] at got
  obtain ⟨held,consistent,_⟩ := formed.consistent found
  rw [fileMap_eq found] at unmapped
  obtain ⟨all,sb₁,alloc⟩ := create_whole consistent inside asked unmapped got
  refine ⟨all,?_⟩
  rw [alloc]
  rfl

theorem truncate_total {start stop : Nat} (formed : Formed fs) (known : fs.label inum = some label)
    (bound : stop < extMaxBlocks - 1) (whole : start % 2 ^ 32 = start) (space : SpaceToCut fs inum) :
    ∃ fs', fs.truncate inum start stop = some fs' ∧ Formed fs' ∧ ∀ j, fs'.label j = fs.label j := by
  obtain ⟨inode,found,_⟩ := found_of_label known
  unfold SpaceToCut at space
  rw [depth_eq found] at space
  have wholeStop : stop % 2 ^ 32 = stop := Nat.mod_eq_of_lt (bound.trans (by decide))
  obtain ⟨held,consistent,_⟩ := formed.consistent found
  obtain ⟨root,sb,got,_⟩ : ∃ root sb, mlfsExtTruncate inode.root start stop fs.sb = some (root,sb) ∧ _ :=
    truncate_ok consistent bound (Or.inl (Or.inr space))
  have done : fs.truncate inum start stop =
      some {fs with sb := sb,inodes := fs.inodes.set inum {inode with root := root}} := by
    simp only [KernFs.truncate,found,whole,wholeStop,got,bind_eq_bind,bind_some]
  obtain ⟨mine,others⟩ := label_set found {inode with root := root} sb
  refine ⟨_,done,(formed.truncate bound whole done).1,fun j => ?_⟩
  by_cases own : j = inum
  · subst own
    rw [label_eq found]
    exact mine
  · exact others j own

end Calls

structure Relabelled (fs fs' : KernFs) (inum : Nat) (label : Option FileType × Nat) : Prop where
  formed : Formed fs'
  logs : fs'.logStart = fs.logStart ∧ fs'.logs = fs.logs
  mine : fs'.label inum = some label
  others : ∀ j, j ≠ inum → fs'.label j = fs.label j

theorem Formed.data_positive (formed : Formed fs) {p : Nat} (data : p ∈ fs.dataBlocks) : 0 < p := by
  obtain ⟨lost,working⟩ := formed.device
  have inside : p ∈ lost + fs.dataBlocks + fs.treeBlocks := by simp [data]
  exact lt_of_lt_of_le working.reserved (working.toBalanced.mem.mp (Or.inr inside)).1

theorem fileMap_none_iff {inum b : Nat} : fs.fileMap inum b = none ↔ fs.cell inum b 0 = none := by
  rw [KernFs.cell,Option.map_eq_none_iff]

section Files
variable {inum nrBlocks logEnd c l : Nat} {label : Option FileType × Nat}

theorem digestRun_total (logEnd : Nat) {at_ : Digesting} (formed : Formed at_.fs) (known : at_.fs.label inum = some label)
    (cur : at_.curOffset = c * gBlockSizeBytes) (data : at_.data = l * gBlockSizeBytes)
    (left : at_.length2allocate = (nrBlocks - at_.nrDigestedBlocks) * gBlockSizeBytes)
    (more : at_.nrDigestedBlocks < nrBlocks) (short : nrBlocks ≤ extInitMaxLen)
    (ok : CallOk at_.fs inum c (nrBlocks - at_.nrDigestedBlocks))
    (space : SpaceFor at_.fs inum c (nrBlocks - at_.nrDigestedBlocks))
    (room : l + (nrBlocks - at_.nrDigestedBlocks) ≤ logEnd) :
    ∃ next, digestRun inum nrBlocks logEnd at_ = some next ∧ at_.nrDigestedBlocks < next.nrDigestedBlocks := by
  have block := block_of cur
  have logBlock := block_of data
  obtain ⟨map,fs₁,got,formed₁,mapping⟩ := getBlocks_total formed known (by omega) (by omega) ok space
  have positive := mapping.positive
  have most := mapping.most
  have owned := formed₁.data_positive (getBlocks_data got 0 positive)
  have enough : ¬ at_.length2allocate < map.ret * gBlockSizeBytes := by
    rw [left,not_lt]
    exact Nat.mul_le_mul_right _ most
  obtain ⟨fs₂,last⟩ : ∃ fs₂, ({fs₁ with map := updateMapTables fs₁.map map.mPblk l (map.ret - 1)} : KernFs).digestLast
      at_.length2allocate map.ret (map.mPblk + (map.ret - 1)) (l + (map.ret - 1)) = some fs₂ := ⟨_,if_neg enough⟩
  have aligned : at_.curOffset % gBlockSizeBytes = 0 := by
    rw [cur]
    exact Nat.mul_mod_left _ _
  refine ⟨_,digestRun_iff.mpr ⟨aligned,map,fs₁,fs₂,?_,?_,?_,?_,rfl⟩,Nat.lt_add_of_pos_right positive⟩
  · rw [block]
    exact got
  · omega
  · rw [logBlock]
    omega
  · rw [logBlock]
    exact last

theorem digestRuns_total (logEnd : Nat) (at_ : Digesting) (formed : Formed at_.fs) (known : at_.fs.label inum = some label)
    (cur : at_.curOffset = c * gBlockSizeBytes) (data : at_.data = l * gBlockSizeBytes)
    (left : at_.length2allocate = nrBlocks * gBlockSizeBytes) (begins : at_.nrDigestedBlocks = 0)
    (short : nrBlocks ≤ extInitMaxLen) (within : c + nrBlocks ≤ extMaxBlocks)
    (reach : ReachesNoLaterBlock (at_.fs.fileMap inum) c nrBlocks) (log : ∀ i < nrBlocks, at_.fs.InLogs (l + i))
    (room : l + nrBlocks ≤ logEnd) (space : RunsMeet SpaceFor inum nrBlocks logEnd at_) :
    ∃ final, digestRuns inum nrBlocks logEnd at_ = some final ∧ Moved at_.fs final.fs inum c l nrBlocks := by
  obtain ⟨final,done,⟨m,most,digested,_,_,_,moved⟩,ended⟩ := loop_total (fun now => ∃ m, m ≤ nrBlocks ∧
      now.nrDigestedBlocks = m ∧ now.curOffset = (c + m) * gBlockSizeBytes ∧ now.data = (l + m) * gBlockSizeBytes ∧
      now.length2allocate = (nrBlocks - now.nrDigestedBlocks) * gBlockSizeBytes ∧ Moved at_.fs now.fs inum c l m)
    (fun now => nrBlocks - now.nrDigestedBlocks)
    (fun now _ none => by
      simp only [digestFinished,decide_eq_true_eq]
      omega)
    (fun now known' unfinished call => by
      obtain ⟨m,most,digested,cur',data',left',moved⟩ := known'
      have more : now.nrDigestedBlocks < nrBlocks := by simpa [digestFinished] using unfinished
      have block : now.curOffset / gBlockSizeBytes = c + m := by
        rw [cur']
        exact Nat.mul_div_cancel _ (by decide)
      rw [block] at call
      have ok : CallOk now.fs inum (c + m) (nrBlocks - now.nrDigestedBlocks) := by
        refine ⟨by omega,?_⟩
        cases m with
        | zero =>
          have same : ∀ b, now.fs.fileMap inum b = none ↔ at_.fs.fileMap inum b = none := by
            intro b
            rw [fileMap_none_iff,fileMap_none_iff,moved.kept b (by omega)]
          rcases reach with ⟨b,low,mapped⟩ | gap
          · exact Or.inl ⟨b,by omega,fun none => mapped ((same b).mp none)⟩
          · exact Or.inr fun i bound => (same _).mpr (gap i (by omega))
        | succ m =>
          refine Or.inl ⟨c + m,by omega,fun none => ?_⟩
          have written := moved.written m (by omega) 0
          rw [fileMap_none_iff.mp none] at written
          cases written
      obtain ⟨next,stepped,further⟩ := digestRun_total logEnd moved.formed ((moved.labels inum).trans known)
        cur' data' left' more short ok call (by omega)
      obtain ⟨more',bound,cur'',data'',left'',digested',moved'⟩ := digestRun_moved moved.formed cur' data' left' more
        short (by rw [block]; exact ok) (fun i inside => by
          rw [add_assoc]
          exact (log (m + i) (by omega)).transfer moved.logs) stepped
      refine ⟨next,stepped,⟨m + more',by omega,by omega,?_,?_,left'',moved.trans moved' fun i inside => log i (by omega)⟩,
        by omega⟩
      · rw [cur'',add_assoc]
      · rw [data'',add_assoc])
    ⟨0,Nat.zero_le _,begins,cur,data,by rw [begins]; exact left,.refl formed⟩ (Nat.sub_le _ _) space
  refine ⟨final,done,?_⟩
  have whole : nrBlocks ≤ m := by
    rw [←digested]
    simpa [digestFinished] using ended
  cases le_antisymm most whole
  exact moved

theorem digestHead_total (offset length : Nat) (at_ : Digesting) (formed : Formed at_.fs)
    (known : at_.fs.label inum = some label) (cur : at_.curOffset = offset) (some_ : 0 < length)
    (ok : CallOk at_.fs inum (offset / gBlockSizeBytes) 1) (space : SpaceFor at_.fs inum (offset / gBlockSizeBytes) 1)
    (log : at_.fs.InLogs (at_.data / gBlockSizeBytes)) :
    ∃ next, digestHead inum offset length at_ = some next ∧ Formed next.fs ∧
      (next.fs.logStart = at_.fs.logStart ∧ next.fs.logs = at_.fs.logs) ∧
      (∀ j, next.fs.label j = at_.fs.label j) ∧ next.nrDigestedBlocks = at_.nrDigestedBlocks + 1 := by
  obtain ⟨map,fs₁,got,formed₁,mapping⟩ := getBlocks_total formed known (Nat.lt_add_one 0) (by decide) ok space
  obtain ⟨_,_,start,logs⟩ := mapping.same
  have positive := mapping.positive
  have single := mapping.most
  have inBlock : offset % gBlockSizeBytes < gBlockSizeBytes := Nat.mod_lt _ (by decide)
  have part : min length (gBlockSizeBytes - offset % gBlockSizeBytes) ≠ 0 := by omega
  have copied : fs₁.copyBlock (at_.data / gBlockSizeBytes) map.mPblk (offset % gBlockSizeBytes)
      (min length (gBlockSizeBytes - offset % gBlockSizeBytes)) = some _ := if_neg part
  have owned : map.mPblk ∈ fs₁.dataBlocks := getBlocks_data got 0 positive
  obtain ⟨owned₂,inodes,start₂,logs₂,sb₂,_⟩ :=
    formed₁.owned.view_copy owned (log.transfer ⟨start,logs⟩) copied
  refine ⟨_,digestHead_iff.mpr ⟨map,fs₁,_,by rw [cur]; exact got,by omega,copied,rfl⟩,
    formed₁.transfer owned₂ inodes sb₂,⟨start₂.trans start,logs₂.trans logs⟩,fun j => ?_,rfl⟩
  exact getBlocks_label got j

theorem digestRuns_finished (inum logEnd : Nat) {at_ : Digesting} (ended : nrBlocks ≤ at_.nrDigestedBlocks) :
    digestRuns inum nrBlocks logEnd at_ = some at_ := by
  have finished : digestFinished nrBlocks at_ = true := decide_eq_true ended
  unfold digestRuns
  cases nrBlocks with
  | zero => exact if_pos finished
  | succ n => exact if_pos finished

end Files

def EntryShape (fs : KernFs) (libfsId offset length blknr : Nat) : Prop :=
  0 < length ∧ (length < gBlockSizeBytes ∨ offset % gBlockSizeBytes = 0 ∧ length % gBlockSizeBytes = 0 ∧
    blknr + length / gBlockSizeBytes ≤ fs.logEnd libfsId)

variable {libfsId n : Nat} {fs' : KernFs} {entry : LogEntry}

theorem digestFile_total {inum offset length blknr size : Nat} {t : FileType} (formed : Formed fs)
    (own : fs.OwnLog libfsId blknr) (shape : EntryShape fs libfsId offset length blknr)
    (typed : fs.label inum = some (some t,size)) (ok : CallOk fs inum (offset / gBlockSizeBytes) (nrBlocksOf length))
    (within : offset / gBlockSizeBytes + nrBlocksOf length ≤ extMaxBlocks)
    (space : CallsMeet SpaceFor fs libfsId (.file inum offset length blknr)) :
    ∃ fs', digestFile fs libfsId inum offset length blknr = some fs' ∧
      Relabelled fs fs' inum (some t,max size (offset + length)) := by
  obtain ⟨inode,found,same⟩ := found_of_label typed
  obtain ⟨type,rfl⟩ := Prod.mk.inj same
  let fs₀ : KernFs := {fs with inodes := fs.inodes.set inum {inode with size := max inode.size (offset + length)}}
  have opened : fs.openFile inum offset length blknr = some ⟨fs₀,offset,blknr * gBlockSizeBytes,length,0⟩ := by
    have occupied : ¬ inode.itype = none := by simp [←type]
    simp only [KernFs.openFile,found,bind_eq_bind,bind_some,if_neg occupied]
    rfl
  have formed₀ : Formed fs₀ := formed.setInode found (Or.inl rfl)
  obtain ⟨mine,others⟩ := label_set found {inode with size := max inode.size (offset + length)} fs.sb
  have sized : fs₀.label inum = some (some t,max inode.size (offset + length)) := by
    rw [type]
    exact mine
  have ok₀ : CallOk fs₀ inum (offset / gBlockSizeBytes) (nrBlocksOf length) := by
    have maps : fs₀.fileMap inum = fs.fileMap inum := by
      rw [fileMap_eq found]
      exact (fileMap_set found {inode with size := max inode.size (offset + length)} fs.sb).1
    unfold CallOk
    rw [maps]
    exact ok
  have ends := own.ends
  obtain ⟨_,low,high⟩ := own
  unfold CallsMeet at space
  simp only [opened] at space
  obtain ⟨headSpace,runsSpace⟩ := space
  simp only [digestFile,opened,bind_eq_bind,bind_some]
  obtain ⟨some_,small | ⟨aligned,whole,room⟩⟩ := shape
  · have blocks : nrBlocksOf length = 1 := by rw [nrBlocksOf,if_pos small]
    rw [blocks] at ok₀
    have block : blknr * gBlockSizeBytes / gBlockSizeBytes = blknr := Nat.mul_div_cancel _ (by decide)
    obtain ⟨at₁,first,formed₁,logs,labels,digested⟩ := digestHead_total offset length
      ⟨fs₀,offset,blknr * gBlockSizeBytes,length,0⟩ formed₀ sized rfl some_ ok₀ (headSpace (Or.inl small))
      (by rw [block]; exact ⟨by simp only [fs₀]; omega,by simp only [fs₀]; omega⟩)
    have ended := digestRuns_finished inum (fs.logEnd libfsId)
      (show nrBlocksOf length ≤ at₁.nrDigestedBlocks by rw [blocks,digested])
    refine ⟨at₁.fs,?_,formed₁,logs,(labels inum).trans sized,fun j other => (labels j).trans (others j other)⟩
    rw [digestFirst,if_pos (Or.inl small),first,bind_some,ended]
    rfl
  · obtain ⟨large,blocks,count,place,short⟩ := whole_blocks low some_ aligned whole room
    have straight : digestFirst inum offset length ⟨fs₀,offset,blknr * gBlockSizeBytes,length,0⟩ =
        some ⟨fs₀,offset,blknr * gBlockSizeBytes,length,0⟩ := if_neg (by simp [not_lt.mpr large,aligned])
    simp only [straight] at runsSpace
    rw [←blocks] at room
    obtain ⟨final,done,moved⟩ := digestRuns_total (fs.logEnd libfsId)
      ⟨fs₀,offset,blknr * gBlockSizeBytes,length,0⟩
      formed₀ sized place rfl count rfl short within ok₀.2 (fun i bound => ⟨by simp only [fs₀]; omega,by simp only [fs₀]; omega⟩)
      room runsSpace
    refine ⟨final.fs,?_,moved.formed,moved.logs,(moved.labels inum).trans sized,
      fun j other => (moved.labels j).trans (others j other)⟩
    rw [straight,bind_some,done]
    rfl

theorem occupy_label (inode : Inode) (itype : Option FileType) :
    (inode.occupy itype).itype = inode.itype.or itype ∧ (inode.occupy itype).size = inode.size := by
  unfold Inode.occupy
  cases type : inode.itype <;> simp [type]

theorem digestInode_total {inum old : Nat} {t : Option FileType} (itype : Option FileType) (size : Nat)
    (formed : Formed fs) (known : fs.label inum = some (t,old)) (fits : SizeFits old) (space : SpaceToCut fs inum) :
    ∃ fs', digestInode fs inum itype size = some fs' ∧ Relabelled fs fs' inum (t.or itype,size) := by
  obtain ⟨inode,found,same⟩ := found_of_label known
  obtain ⟨rfl,rfl⟩ := Prod.mk.inj same
  obtain ⟨type,sized⟩ := occupy_label inode itype
  let fs₀ : KernFs := {fs with inodes := fs.inodes.set inum (inode.occupy itype)}
  have root : (inode.occupy itype).root = inode.root ∨ (inode.occupy itype).root = emptyRoot := by
    unfold Inode.occupy
    split
    · exact Or.inr rfl
    · exact Or.inl rfl
  have formed₀ : Formed fs₀ := formed.setInode found root
  obtain ⟨mine,others⟩ := label_set found (inode.occupy itype) fs.sb
  have found₀ : fs₀.inodes[inum]? = some (inode.occupy itype) := by
    simp [fs₀,(List.getElem?_eq_some_iff.mp found).1]
  have space₀ : SpaceToCut fs₀ inum := by
    unfold SpaceToCut at space ⊢
    rw [depth_eq found] at space
    rw [depth_eq found₀]
    rcases root with kept | cleared
    · rw [kept]
      exact space
    · rw [cleared]
      exact lt_of_le_of_lt (Nat.add_le_add_right (Nat.zero_le _) 2) space
  -- The tree is cut or left; types and sizes are as before either way.
  obtain ⟨cut,shortened,formed₁,logs,labels⟩ : ∃ cut, fs₀.shorten inum size (inode.occupy itype) = some cut ∧ Formed cut ∧
      (cut.logStart = fs₀.logStart ∧ cut.logs = fs₀.logs) ∧ ∀ j, cut.label j = fs₀.label j := by
    unfold KernFs.shorten
    split
    · rename_i shorter
      rw [sized] at shorter ⊢
      unfold SizeFits at fits
      have whole : size / gBlockSizeBytes + (if size % gBlockSizeBytes ≠ 0 then 1 else 0) < 2 ^ 32 := by
        have top : extMaxBlocks - 1 + 1 ≤ 2 ^ 32 := by decide
        have less : size / gBlockSizeBytes ≤ inode.size / gBlockSizeBytes := Nat.div_le_div_right (le_of_lt shorter.2)
        split <;> omega
      obtain ⟨cut,done,formed₁,labels⟩ := truncate_total formed₀ mine fits (Nat.mod_eq_of_lt whole) space₀
      obtain ⟨_,_,_,_,_,rfl⟩ := truncate_parts done
      exact ⟨_,done,formed₁,⟨rfl,rfl⟩,labels⟩
    · exact ⟨fs₀,rfl,formed₀,⟨rfl,rfl⟩,fun _ => rfl⟩
  obtain ⟨inode₁,found₁,same₁⟩ := found_of_label ((labels inum).trans mine)
  obtain ⟨type₁,_⟩ := Prod.mk.inj same₁
  obtain ⟨mine₁,others₁⟩ := label_set found₁ {inode₁ with size := size} cut.sb
  refine ⟨{cut with inodes := cut.inodes.set inum {inode₁ with size := size}},?_,
    formed₁.setInode found₁ (Or.inl rfl),logs,?_,fun j other => ?_⟩
  · simp only [digestInode,found,bind_eq_bind,bind_some]
    rw [show ({fs with inodes := fs.inodes.set inum (inode.occupy itype)} : KernFs) = fs₀ from rfl,shortened,
      bind_some,found₁,bind_some]
  · rw [←type,type₁]
    exact mine₁
  · exact (others₁ j other).trans ((labels j).trans (others j other))

theorem digestUnlink_total {inum old : Nat} {t : Option FileType} (formed : Formed fs)
    (known : fs.label inum = some (t,old)) (fits : SizeFits old) (space : SpaceToCut fs inum) :
    ∃ fs', digestUnlink fs inum = some fs' ∧ Relabelled fs fs' inum (none,0) := by
  obtain ⟨inode,found,same⟩ := found_of_label known
  obtain ⟨rfl,rfl⟩ := Prod.mk.inj same
  obtain ⟨cut,released,formed₁,logs,labels⟩ : ∃ cut, fs.release inum inode = some cut ∧ Formed cut ∧
      (cut.logStart = fs.logStart ∧ cut.logs = fs.logs) ∧ ∀ j, cut.label j = fs.label j := by
    unfold KernFs.release
    dsimp only
    split
    · have most : (if inode.size / gBlockSizeBytes % 2 ^ 32 = 0 then inode.size / gBlockSizeBytes % 2 ^ 32
          else inode.size / gBlockSizeBytes % 2 ^ 32 - 1) ≤ inode.size / gBlockSizeBytes := by
        have less := Nat.mod_le (inode.size / gBlockSizeBytes) (2 ^ 32)
        split <;> omega
      obtain ⟨cut,done,formed₁,labels⟩ := truncate_total formed known (lt_of_le_of_lt most fits) (Nat.zero_mod _) space
      obtain ⟨_,_,_,_,_,rfl⟩ := truncate_parts done
      exact ⟨_,done,formed₁,⟨rfl,rfl⟩,labels⟩
    · exact ⟨fs,rfl,formed,⟨rfl,rfl⟩,fun _ => rfl⟩
  obtain ⟨inode₁,found₁,_⟩ := found_of_label ((labels inum).trans known)
  obtain ⟨mine₁,others₁⟩ := label_set found₁ ⟨none,0,emptyRoot⟩ cut.sb
  refine ⟨{cut with inodes := cut.inodes.set inum ⟨none,0,emptyRoot⟩},?_,formed₁.setInode found₁ (Or.inr rfl),logs,mine₁,
    fun j other => (others₁ j other).trans (labels j)⟩
  simp only [digestUnlink,found,released,bind_eq_bind,bind_some]

def AllocatedSoFar (fs : KernFs) (inum k blkLength : Nat) (now : Allocating) : Prop :=
  (now.fs = fs ∧ now.blkAlloced ≤ k ∧ (0 < now.blkAlloced → fs.fileMap inum 0 = some now.firstPblk)) ∨
    (now.blkAlloced = blkLength ∧ Formed now.fs ∧ (now.fs.logStart = fs.logStart ∧ now.fs.logs = fs.logs) ∧
      ∀ j, now.fs.label j = fs.label j)

theorem allocateRun_total {inum k blkLength : Nat} {now : Allocating}
    (formed : Formed fs) (known : fs.label inum = some label) (within : blkLength ≤ extMaxBlocks)
    (most : k ≤ blkLength)
    (first : ∀ b < k, fs.fileMap inum b ≠ none ∧ fs.fileMap inum b = (fs.fileMap inum 0).map (· + b))
    (rest : ∀ b < blkLength, k ≤ b → fs.fileMap inum b = none)
    (behind : k = blkLength ∨ blkLength - k ≤ allocSize ∧ (k = 0 ∨
      (mlfsExtAllocBlocks fs.sb .data (blkLength - k)).map Prod.fst = (fs.fileMap inum 0).map (· + k)))
    (sofar : AllocatedSoFar fs inum k blkLength now) (unfinished : allocateFinished blkLength now = false)
    (space : SpaceFor now.fs inum now.blkAlloced (min allocSize (blkLength - now.blkAlloced))) :
    ∃ next, allocateRun inum blkLength now = some next ∧ AllocatedSoFar fs inum k blkLength next ∧
      now.blkAlloced < next.blkAlloced := by
  have more : now.blkAlloced < blkLength := by simpa [allocateFinished] using unfinished
  obtain ⟨here,done,joined⟩ : now.fs = fs ∧ now.blkAlloced ≤ k ∧
      (0 < now.blkAlloced → fs.fileMap inum 0 = some now.firstPblk) := by
    rcases sofar with early | ⟨ended,_⟩
    · exact early
    · omega
  obtain ⟨fs₁,blkAlloced,firstPblk⟩ := now
  dsimp only at here done joined more space
  subst here
  have large : 0 < allocSize := by decide
  have small : blkAlloced % 2 ^ 32 = blkAlloced :=
    Nat.mod_eq_of_lt (lt_of_lt_of_le (show blkAlloced < extMaxBlocks by omega) (by decide))
  by_cases mapped : blkAlloced < k
  · -- A request among the mapped blocks answers with a part of them.
    obtain ⟨some_,place⟩ := first blkAlloced mapped
    obtain ⟨map,got,hit⟩ := getBlocks_hit (min allocSize (blkLength - blkAlloced)) formed (by omega) (by omega) some_
    have positive := hit.positive
    have bound := hit.most
    have starts := hit.agrees 0 positive
    have inside : blkAlloced + map.ret ≤ k := by
      by_contra beyond
      have last := hit.agrees (k - blkAlloced) (by omega)
      rw [Nat.add_sub_cancel' done,rest k (by omega) (le_refl k)] at last
      cases last
    rw [add_zero,add_zero,place] at starts
    obtain ⟨p,zero,at_⟩ := map_eq_some_iff.mp starts
    refine ⟨_,allocateRun_iff.mpr ⟨map,fs₁,got,Nat.ne_of_gt positive,?_,rfl⟩,Or.inl ⟨rfl,inside,fun _ => ?_⟩,
      Nat.lt_add_of_pos_right positive⟩
    · rw [small]
      by_cases begins : blkAlloced = 0
      · exact Or.inl begins
      · have same := joined (Nat.pos_of_ne_zero begins)
        rw [zero] at same
        cases same
        exact Or.inr at_.symm
    · dsimp only
      rw [small]
      split
      · rename_i begins
        rw [zero,←at_,begins]
        rfl
      · rename_i later
        exact joined (Nat.pos_of_ne_zero later)
  · -- The rest is unmapped and comes in one piece.
    obtain rfl : blkAlloced = k := by omega
    obtain ⟨short,follows⟩ := behind.resolve_left (Nat.ne_of_lt more)
    rw [min_eq_right short] at space
    have gap : ∀ i < blkLength - blkAlloced, fs₁.fileMap inum (blkAlloced + i) = none :=
      fun i bound => rest _ (by omega) (Nat.le_add_right _ _)
    obtain ⟨map,fs₂,got,formed₂,mapping⟩ := getBlocks_total formed known (by omega)
      (le_trans short (by decide)) ⟨by omega,Or.inr gap⟩ space
    obtain ⟨all,alloc⟩ := getBlocks_whole formed (by omega) (by omega) gap got
    obtain ⟨_,_,start,logs⟩ := mapping.same
    refine ⟨_,allocateRun_iff.mpr ⟨map,fs₂,by rw [min_eq_right short]; exact got,
      Nat.ne_of_gt mapping.positive,?_,rfl⟩,Or.inr ⟨?_,formed₂,⟨start,logs⟩,getBlocks_label got⟩,
      Nat.lt_add_of_pos_right mapping.positive⟩
    · rw [small]
      rcases follows with begins | next
      · exact Or.inl begins
      · by_cases begins : blkAlloced = 0
        · exact Or.inl begins
        · rw [alloc,joined (Nat.pos_of_ne_zero begins)] at next
          exact Or.inr (Option.some.inj next)
    · dsimp only
      omega

theorem digestAllocate_total {inum length size : Nat} {t : FileType} (formed : Formed fs)
    (typed : fs.label inum = some (some t,size)) (longer : size < length)
    (within : allocateLength length ≤ extMaxBlocks) (contiguous : Contiguous fs inum (allocateLength length))
    (space : CallsMeet SpaceFor fs libfsId (.alloc inum length)) :
    ∃ fs', digestAllocate fs inum length = some fs' ∧ Relabelled fs fs' inum (some t,size) := by
  obtain ⟨inode,found,same⟩ := found_of_label typed
  obtain ⟨type,rfl⟩ := Prod.mk.inj same
  obtain ⟨k,most,first,rest,behind⟩ := contiguous
  obtain ⟨final,done,sofar,ended⟩ := loop_total (AllocatedSoFar fs inum k (allocateLength length))
    (fun now => allocateLength length - now.blkAlloced)
    (fun now _ none => by
      simp only [allocateFinished,decide_eq_true_eq]
      omega)
    (fun now sofar unfinished call => by
      obtain ⟨next,stepped,sofar',further⟩ :=
        allocateRun_total formed typed within most first rest behind sofar unfinished call
      have more : now.blkAlloced < allocateLength length := by simpa [allocateFinished] using unfinished
      exact ⟨next,stepped,sofar',by omega⟩)
    (Or.inl ⟨rfl,Nat.zero_le _,fun positive => absurd positive (lt_irrefl 0)⟩) (Nat.sub_le _ _) space
  have refused : ¬ (inode.itype = none ∨ length ≤ inode.size) := by
    rw [←type]
    simp
    omega
  refine ⟨final.fs,?_,?_⟩
  · simp only [digestAllocate,found,bind_eq_bind,bind_some,if_neg refused,done]
  · rcases sofar with ⟨unchanged,_⟩ | ⟨_,formed',logs,labels⟩
    · rw [unchanged]
      exact ⟨formed,⟨rfl,rfl⟩,typed,fun _ _ => rfl⟩
    · exact ⟨formed',logs,(labels inum).trans typed,fun j _ => labels j⟩

abbrev Labels := Nat → Option FileType × Nat

structure Labelled (fs : KernFs) (n : Nat) (labels : Labels) : Prop where
  label : ∀ j, fs.label j = if j < n then some (labels j) else none

def relabel (labels : Labels) : LogEntry → Labels
  | .inode inum itype size => update labels inum ((labels inum).1.or itype,size)
  | .file inum offset length _ => update labels inum ((labels inum).1,max (labels inum).2 (offset + length))
  | .unlink inum => update labels inum (none,0)
  | .alloc _ _ => labels

-- What `digest_each_log_entries` asks of them: inodes of the table, of a type where blocks are mapped,
-- smaller than what is to be allocated.
def Accepts (n : Nat) (labels : Labels) : LogEntry → Prop
  | .inode inum _ size => inum < n ∧ SizeFits size
  | .file inum offset length _ => inum < n ∧ (labels inum).1 ≠ none ∧ SizeFits (offset + length) ∧ 0 < length ∧
      (length < gBlockSizeBytes ∨ offset % gBlockSizeBytes = 0 ∧ length % gBlockSizeBytes = 0)
  | .unlink inum => inum < n
  | .alloc inum length => inum < n ∧ (labels inum).1 ≠ none ∧ (labels inum).2 < length ∧ SizeFits length

def InOwnLog (fs : KernFs) (libfsId : Nat) : LogEntry → Prop
  | .file _ _ length blknr => fs.OwnLog libfsId blknr ∧
      (length < gBlockSizeBytes ∨ blknr + length / gBlockSizeBytes ≤ fs.logEnd libfsId)
  | .inode .. | .unlink _ | .alloc .. => True

-- What the digest of an entry asks of blocks: free space, no run into mapped blocks behind its start, and one piece
-- for `digest_allocate`.
def BlocksOk (fs : KernFs) (libfsId : Nat) : LogEntry → Prop
  | .inode inum _ _ => SpaceToCut fs inum
  | .unlink inum => SpaceToCut fs inum
  | .file inum offset length blknr => ReachesNoLaterBlock (fs.fileMap inum) (offset / gBlockSizeBytes) (nrBlocksOf length) ∧
      CallsMeet SpaceFor fs libfsId (.file inum offset length blknr)
  | .alloc inum length => Contiguous fs inum (allocateLength length) ∧ CallsMeet SpaceFor fs libfsId (.alloc inum length)

instance (fs : KernFs) (libfsId : Nat) : ∀ entry, Decidable (InOwnLog fs libfsId entry)
  | .file .. => inferInstanceAs (Decidable (_ ∧ (_ ∨ _)))
  | .inode .. | .unlink _ | .alloc .. => isTrue trivial

instance (fs : KernFs) (libfsId : Nat) : ∀ entry, Decidable (BlocksOk fs libfsId entry)
  | .inode inum _ _ | .unlink inum => inferInstanceAs (Decidable (SpaceToCut fs inum))
  | .file .. => inferInstanceAs (Decidable (ReachesNoLaterBlock .. ∧ _))
  | .alloc .. => inferInstanceAs (Decidable (Contiguous .. ∧ _))

variable {labels : Labels}

theorem Labelled.of_relabelled
    (labelled : Labelled fs n labels) (inside : inum < n) (done : Relabelled fs fs' inum label) :
    Labelled fs' n (update labels inum label) := by
  refine ⟨fun j => ?_⟩
  by_cases own : j = inum
  · subst own
    rw [if_pos inside,update_self]
    exact done.mine
  · rw [update_of_ne own,done.others j own]
    exact labelled.label j

theorem fileBlocks_within {offset length : Nat} (fits : SizeFits (offset + length))
    (shape : length < gBlockSizeBytes ∨ offset % gBlockSizeBytes = 0 ∧ length % gBlockSizeBytes = 0) :
    offset / gBlockSizeBytes + nrBlocksOf length ≤ extMaxBlocks := by
  unfold SizeFits at fits
  unfold nrBlocksOf
  by_cases small : length < gBlockSizeBytes
  · rw [if_pos small]
    simp only [gBlockSizeBytes] at *
    omega
  · obtain ⟨aligned,whole⟩ := shape.resolve_left small
    rw [if_neg small,if_neg (not_not.mpr whole)]
    simp only [gBlockSizeBytes] at *
    omega

theorem digestEntry_total (formed : Formed fs)
    (labelled : Labelled fs n labels) (sizes : ∀ j, SizeFits (labels j).2) (accepts : Accepts n labels entry)
    (placed : InOwnLog fs libfsId entry) (blocks : BlocksOk fs libfsId entry) :
    ∃ fs', digestEntry fs libfsId entry = some fs' ∧ Formed fs' ∧
      (fs'.logStart = fs.logStart ∧ fs'.logs = fs.logs) ∧ Labelled fs' n (relabel labels entry) := by
  have known : ∀ j < n, fs.label j = some ((labels j).1,(labels j).2) := by
    intro j inside
    rw [labelled.label j,if_pos inside]
  cases entry with
  | inode inum itype size =>
    obtain ⟨inside,_⟩ := accepts
    obtain ⟨fs',done,result⟩ := digestInode_total itype size formed (known inum inside) (sizes inum) blocks
    exact ⟨fs',done,result.formed,result.logs,labelled.of_relabelled inside result⟩
  | unlink inum =>
    obtain ⟨fs',done,result⟩ := digestUnlink_total formed (known inum accepts) (sizes inum) blocks
    exact ⟨fs',done,result.formed,result.logs,labelled.of_relabelled accepts result⟩
  | file inum offset length blknr =>
    obtain ⟨inside,typed,fits,some_,shape⟩ := accepts
    obtain ⟨t,type⟩ := ne_none_iff_exists'.mp typed
    have mine := known inum inside
    rw [type] at mine
    have within := fileBlocks_within fits shape
    have first : offset / gBlockSizeBytes < extMaxBlocks := by
      unfold SizeFits at fits
      exact lt_of_le_of_lt (Nat.div_le_div_right (Nat.le_add_right _ _)) (lt_of_lt_of_le fits (Nat.sub_le _ _))
    have entryShape : EntryShape fs libfsId offset length blknr := by
      refine ⟨some_,?_⟩
      by_cases small : length < gBlockSizeBytes
      · exact Or.inl small
      · obtain ⟨aligned,whole⟩ := shape.resolve_left small
        exact Or.inr ⟨aligned,whole,placed.2.resolve_left small⟩
    obtain ⟨fs',done,result⟩ := digestFile_total formed placed.1 entryShape mine ⟨first,blocks.1⟩ within blocks.2
    refine ⟨fs',done,result.formed,result.logs,?_⟩
    have relabelled := labelled.of_relabelled inside result
    rw [←type] at relabelled
    exact relabelled
  | alloc inum length =>
    obtain ⟨inside,typed,longer,fits⟩ := accepts
    obtain ⟨t,type⟩ := ne_none_iff_exists'.mp typed
    have mine := known inum inside
    rw [type] at mine
    have within : allocateLength length ≤ extMaxBlocks := by
      unfold SizeFits at fits
      unfold allocateLength
      split <;> omega
    obtain ⟨fs',done,result⟩ := digestAllocate_total formed mine longer within blocks.1 blocks.2
    refine ⟨fs',done,result.formed,result.logs,?_⟩
    have relabelled := labelled.of_relabelled inside result
    rwa [show ((some t,(labels inum).2) : Option FileType × Nat) = labels inum by rw [←type],
      update_eq_self] at relabelled

theorem relabel_fits (sizes : ∀ j, SizeFits (labels j).2)
    (accepts : Accepts n labels entry) : ∀ j, SizeFits (relabel labels entry j).2 := by
  have updated : ∀ (inum : Nat) (label : Option FileType × Nat), SizeFits label.2 →
      ∀ j, SizeFits (update labels inum label j).2 := by
    intro inum label fits j
    by_cases own : j = inum
    · subst own
      rw [update_self]
      exact fits
    · rw [update_of_ne own]
      exact sizes j
  cases entry with
  | inode inum itype size => exact updated inum _ accepts.2
  | file inum offset length blknr =>
    refine updated inum _ ?_
    rcases max_choice (labels inum).2 (offset + length) with same | same
    · rw [same]
      exact sizes inum
    · rw [same]
      exact accepts.2.2.1
  | unlink inum => exact updated inum _ (by decide)
  | alloc inum length => exact sizes

theorem Labelled.length (labelled : Labelled fs n labels) :
    fs.inodes.length = n := by
  have known : ∀ j, j < fs.inodes.length ↔ j < n := by
    intro j
    have label := labelled.label j
    unfold KernFs.label at label
    by_cases inside : j < fs.inodes.length
    · rw [List.getElem?_eq_getElem inside,map_some] at label
      split at label
      · exact iff_of_true inside (by assumption)
      · cases label
    · rw [List.getElem?_eq_none (Nat.le_of_not_lt inside),Option.map_none] at label
      split at label
      · cases label
      · exact iff_of_false inside (by assumption)
  have first := known n
  have second := known fs.inodes.length
  omega

theorem InOwnLog.transfer (placed : InOwnLog fs libfsId entry)
    (same : fs'.logStart = fs.logStart ∧ fs'.logs = fs.logs) : InOwnLog fs' libfsId entry := by
  cases entry with
  | file inum offset length blknr =>
    unfold InOwnLog KernFs.OwnLog KernFs.logEnd at placed ⊢
    rw [same.1,same.2]
    exact placed
  | inode | unlink | alloc => trivial

end Assise.Digest
