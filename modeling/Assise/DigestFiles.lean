import Assise.Contents
import Assise.DigestPlacement

-- What digesting a data entry does to the bytes of files.
namespace Assise.Digest

open Balloc Extents MapTable FileMap Lib.Runs Lib.Spans Option
open LogRing (gLogSize)

def KernFs.byte (fs : KernFs) (inum x : Nat) : Option UInt8 := fs.cell inum (x / gBlockSizeBytes) (x % gBlockSizeBytes)

def KernFs.dataByte (fs : KernFs) (offset blknr x : Nat) : UInt8 :=
  fs.view (blknr + (x / gBlockSizeBytes - offset / gBlockSizeBytes)) (x % gBlockSizeBytes)

def DataShape (fs : KernFs) (libfsId offset length blknr : Nat) : Prop :=
  0 < length ∧ (length < gBlockSizeBytes ∧ offset % gBlockSizeBytes + length ≤ gBlockSizeBytes ∨
    offset % gBlockSizeBytes = 0 ∧ length % gBlockSizeBytes = 0 ∧
      blknr + length / gBlockSizeBytes ≤ fs.logEnd libfsId)

theorem block_of {n block : Nat} (place : n = block * gBlockSizeBytes) : n / gBlockSizeBytes = block := by
  rw [place]
  exact Nat.mul_div_cancel _ (by decide)

-- An entry of whole blocks has as many as its length says, and not more than an extent can have.
theorem whole_blocks {fs : KernFs} {libfsId offset length blknr : Nat}
    (low : fs.logStart + libfsId * gLogSize ≤ blknr) (some_ : 0 < length) (aligned : offset % gBlockSizeBytes = 0)
    (whole : length % gBlockSizeBytes = 0) (room : blknr + length / gBlockSizeBytes ≤ fs.logEnd libfsId) :
    gBlockSizeBytes ≤ length ∧ nrBlocksOf length = length / gBlockSizeBytes ∧ length = nrBlocksOf length * gBlockSizeBytes ∧
      offset = offset / gBlockSizeBytes * gBlockSizeBytes ∧ nrBlocksOf length ≤ extInitMaxLen := by
  have large : gBlockSizeBytes ≤ length := Nat.le_of_dvd some_ (Nat.dvd_of_mod_eq_zero whole)
  have blocks : nrBlocksOf length = length / gBlockSizeBytes := by
    rw [nrBlocksOf,if_neg (not_lt.mpr large),whole]
    simp
  rw [blocks]
  refine ⟨large,rfl,(Nat.div_mul_cancel (Nat.dvd_of_mod_eq_zero whole)).symm,
    (Nat.div_mul_cancel (Nat.dvd_of_mod_eq_zero aligned)).symm,?_⟩
  unfold KernFs.logEnd at room
  simp only [gLogSize,extInitMaxLen] at *
  omega

-- A data entry was digested: its bytes are in the file. A block that had to be mapped for a part of
-- it keeps, around that part, what the free block held.
structure DataDigested (fs fs' : KernFs) (inum offset length blknr : Nat) : Prop where
  formed : Formed fs'
  logs : fs'.logStart = fs.logStart ∧ fs'.logs = fs.logs
  labels : ∀ j, j ≠ inum → fs'.label j = fs.label j
  label : ∃ t size, fs.label inum = some (some t,size) ∧ fs'.label inum = some (some t,max size (offset + length))
  written : ∀ x, offset ≤ x → x < offset + length → fs'.byte inum x = some (fs.dataByte offset blknr x)
  kept : ∀ x, ¬ (offset ≤ x ∧ x < offset + length) → fs'.byte inum x = fs.byte inum x ∨
    fs.byte inum x = none ∧ length < gBlockSizeBytes ∧ x / gBlockSizeBytes = offset / gBlockSizeBytes ∧
      ∃ p ∈ fs.sb.free, fs'.byte inum x = some (fs.view p (x % gBlockSizeBytes))
  others : ∀ j, j ≠ inum → fs'.cell j = fs.cell j
  log : ∀ m, fs.InLogs m → ¬ (blknr ≤ m ∧ m < blknr + nrBlocksOf length) → fs'.view m = fs.view m

variable {l inum : Nat} {fs' fs : KernFs} {at_ : Digesting}

theorem digestLast_whole {length2allocate blocks count k : Nat}
    (left : length2allocate = blocks * gBlockSizeBytes) (most : count ≤ blocks) (positive : 0 < count)
    (done : ({fs with map := updateMapTables fs.map k l (count - 1)} : KernFs).digestLast length2allocate count
      (k + (count - 1)) (l + (count - 1)) = some fs') :
    fs' = {fs with map := updateMapTables fs.map k l count} := by
  have enough : ¬ length2allocate < count * gBlockSizeBytes := by
    rw [left,not_lt]
    exact Nat.mul_le_mul_right _ most
  unfold KernFs.digestLast at done
  rw [if_neg enough] at done
  cases done
  have step : count = count - 1 + 1 := by omega
  conv_rhs => rw [step,updateMapTables]

theorem digestRun_moved {nrBlocks logEnd c : Nat} {next : Digesting} (formed : Formed at_.fs)
    (cur : at_.curOffset = c * gBlockSizeBytes) (data : at_.data = l * gBlockSizeBytes)
    (left : at_.length2allocate = (nrBlocks - at_.nrDigestedBlocks) * gBlockSizeBytes)
    (more : at_.nrDigestedBlocks < nrBlocks) (short : nrBlocks ≤ extInitMaxLen)
    (ok : CallOk at_.fs inum (at_.curOffset / gBlockSizeBytes) (nrBlocks - at_.nrDigestedBlocks))
    (log : ∀ i < nrBlocks - at_.nrDigestedBlocks, at_.fs.InLogs (l + i))
    (done : digestRun inum nrBlocks logEnd at_ = some next) :
    ∃ m, m ≤ nrBlocks - at_.nrDigestedBlocks ∧ next.curOffset = (c + m) * gBlockSizeBytes ∧
      next.data = (l + m) * gBlockSizeBytes ∧
      next.length2allocate = (nrBlocks - next.nrDigestedBlocks) * gBlockSizeBytes ∧
      next.nrDigestedBlocks = at_.nrDigestedBlocks + m ∧ Moved at_.fs next.fs inum c l m := by
  have block := block_of cur
  have logBlock := block_of data
  rw [block] at ok
  obtain ⟨_,map,fs₁,fs₂,got,_,_,last,rfl⟩ := digestRun_iff.mp done
  rw [block] at got
  rw [logBlock] at last
  obtain ⟨formed₁,mapping⟩ := formed.create (by omega) (by omega) ok got
  obtain ⟨_,_,start,logs⟩ := mapping.same
  have most := mapping.most
  cases digestLast_whole left most mapping.positive last
  have moved := formed₁.swaps_moved mapping.found (fun i bound => (log i (by omega)).transfer ⟨start,logs⟩)
  refine ⟨map.ret,most,?_,?_,?_,rfl,mapping.moved (getBlocks_label got) moved⟩
  · simp only [cur,add_mul]
  · simp only [data,add_mul]
  · simp only [left]
    rw [←Nat.sub_mul,Nat.sub_sub]

theorem digestRuns_moved {nrBlocks logEnd c : Nat} {final : Digesting} (formed : Formed at_.fs)
    (cur : at_.curOffset = c * gBlockSizeBytes) (data : at_.data = l * gBlockSizeBytes)
    (left : at_.length2allocate = nrBlocks * gBlockSizeBytes) (begins : at_.nrDigestedBlocks = 0)
    (short : nrBlocks ≤ extInitMaxLen) (ok : RunsMeet CallOk inum nrBlocks logEnd at_)
    (log : ∀ i < nrBlocks, at_.fs.InLogs (l + i)) (done : digestRuns inum nrBlocks logEnd at_ = some final) :
    Moved at_.fs final.fs inum c l nrBlocks := by
  have inv := loop_invariant (fun now => ∃ m, m ≤ nrBlocks ∧ now.nrDigestedBlocks = m ∧
      now.curOffset = (c + m) * gBlockSizeBytes ∧ now.data = (l + m) * gBlockSizeBytes ∧
      now.length2allocate = (nrBlocks - now.nrDigestedBlocks) * gBlockSizeBytes ∧ Moved at_.fs now.fs inum c l m)
    (fun now next known unfinished call stepped => by
      obtain ⟨m,most,digested,cur',data',left',moved⟩ := known
      have more : now.nrDigestedBlocks < nrBlocks := by simpa [digestFinished] using unfinished
      obtain ⟨more',bound,cur'',data'',left'',digested',moved'⟩ := digestRun_moved moved.formed cur' data' left' more
        short call (fun i inside => by
          rw [add_assoc]
          exact (log (m + i) (by omega)).transfer moved.logs) stepped
      refine ⟨m + more',by omega,by omega,?_,?_,left'',moved.trans moved' fun i inside => log i (by omega)⟩
      · rw [cur'',add_assoc]
      · rw [data'',add_assoc])
    ⟨0,Nat.zero_le _,begins,cur,data,by rw [begins]; exact left,.refl formed⟩ ok done
  obtain ⟨⟨m,most,digested,_,_,_,moved⟩,ended⟩ := inv
  have whole : nrBlocks ≤ m := by
    rw [←digested]
    simpa [digestFinished] using ended
  cases le_antisymm most whole
  exact moved

theorem byte_of_cell {j : Nat} (same : fs'.cell j = fs.cell j) (x : Nat) : fs'.byte j x = fs.byte j x := by
  rw [KernFs.byte,KernFs.byte,same]

theorem digestHead_copied {offset length blknr : Nat} {next : Digesting} (formed : Formed at_.fs)
    (cur : at_.curOffset = offset) (data : at_.data = blknr * gBlockSizeBytes) (some_ : 0 < length)
    (fits : offset % gBlockSizeBytes + length ≤ gBlockSizeBytes) (ok : CallOk at_.fs inum (offset / gBlockSizeBytes) 1)
    (log : at_.fs.InLogs blknr) (done : digestHead inum offset length at_ = some next) :
    Formed next.fs ∧ (next.fs.logStart = at_.fs.logStart ∧ next.fs.logs = at_.fs.logs) ∧
      (∀ j, next.fs.label j = at_.fs.label j) ∧ next.nrDigestedBlocks = at_.nrDigestedBlocks + 1 ∧
      (∀ o, offset % gBlockSizeBytes ≤ o → o < offset % gBlockSizeBytes + length →
        next.fs.cell inum (offset / gBlockSizeBytes) o = some (at_.fs.view blknr o)) ∧
      (∀ o, ¬ (offset % gBlockSizeBytes ≤ o ∧ o < offset % gBlockSizeBytes + length) →
        next.fs.cell inum (offset / gBlockSizeBytes) o = at_.fs.cell inum (offset / gBlockSizeBytes) o ∨
        at_.fs.cell inum (offset / gBlockSizeBytes) o = none ∧ ∃ p ∈ at_.fs.sb.free,
          next.fs.cell inum (offset / gBlockSizeBytes) o = some (at_.fs.view p o)) ∧
      (∀ b, b ≠ offset / gBlockSizeBytes → next.fs.cell inum b = at_.fs.cell inum b) ∧
      (∀ j, j ≠ inum → next.fs.cell j = at_.fs.cell j) ∧
      ∀ m, at_.fs.InLogs m → next.fs.view m = at_.fs.view m := by
  have len : min length (gBlockSizeBytes - offset % gBlockSizeBytes) = length := min_eq_left (by omega)
  have logBlock : at_.data / gBlockSizeBytes = blknr := by
    rw [data]
    exact Nat.mul_div_cancel _ (by decide)
  obtain ⟨map,fs₁,fs₂,got,_,copied,rfl⟩ := digestHead_iff.mp done
  rw [cur] at got
  rw [len,logBlock] at copied
  obtain ⟨formed₁,mapping⟩ := formed.create (Nat.lt_add_one 0) (by decide) ok got
  obtain ⟨_,_,start,logs⟩ := mapping.same
  have views := mapping.views
  have found : fs₁.fileMap inum (offset / gBlockSizeBytes) = some map.mPblk := mapping.found 0 mapping.positive
  have owned := fileMap_owned found
  have log₁ : fs₁.InLogs blknr := log.transfer ⟨start,logs⟩
  obtain ⟨owned₂,inodes,start₂,logs₂,sb₂,target,rest⟩ := formed₁.owned.view_copy owned log₁ copied
  have formed₂ := formed₁.transfer owned₂ inodes sb₂
  have maps : ∀ j, fs₂.fileMap j = fs₁.fileMap j := by
    intro j
    funext b
    rw [KernFs.fileMap,KernFs.fileMap,inodes]
  have labels : ∀ j, fs₂.label j = fs₁.label j := by
    intro j
    rw [KernFs.label,KernFs.label,inodes]
  -- Blocks other than the one mapped for the entry keep their views.
  have still : ∀ j b p, fs₁.fileMap j b = some p → ¬ (j = inum ∧ b = offset / gBlockSizeBytes) →
      fs₂.view p = fs₁.view p := by
    intro j b p mapped other
    have below := formed₁.below (fileMap_owned mapped)
    refine rest p (by omega) ?_
    rintro rfl
    exact other (formed₁.fileMap_injective mapped found)
  have now : fs₂.fileMap inum (offset / gBlockSizeBytes) = some map.mPblk := (congrFun (maps inum) _).trans found
  have single : map.ret ≤ 1 := mapping.most
  have outside : ∀ b, b ≠ offset / gBlockSizeBytes → fs₁.fileMap inum b = at_.fs.fileMap inum b :=
    fun b other => mapping.outside (by omega)
  refine ⟨formed₂,⟨start₂.trans start,logs₂.trans logs⟩,fun j => (labels j).trans (getBlocks_label got j),rfl,
    fun o low high => ?_,fun o out => ?_,fun b other => ?_,fun j other => ?_,fun m inside => ?_⟩
  · rw [cell_of_fileMap now,target,splice,if_pos ⟨low,high⟩,views]
  · rw [cell_of_fileMap now,target,splice,if_neg out,views]
    rcases mapping.fresh _ _ found with old | ⟨unmapped,_,free⟩
    · exact Or.inl (cell_of_fileMap old o).symm
    · refine Or.inr ⟨?_,map.mPblk,free,rfl⟩
      rw [KernFs.cell,unmapped,Option.map_none]
  · apply cell_congr
    · exact (congrFun (maps inum) b).trans (outside b other)
    · intro p mapped
      rw [still inum b p ((outside b other).trans mapped) fun both => other both.2,views]
  · funext b
    apply cell_congr
    · exact (congrFun (maps j) b).trans (congrFun (mapping.others j other) b)
    · intro p mapped
      rw [still j b p (mapping.kept j b p mapped) fun both => other both.1,views]
  · have below := formed₁.below owned
    have range : at_.fs.logStart ≤ m := inside.1
    have top : m < at_.fs.logStart + at_.fs.logs * gLogSize := inside.2
    rw [rest m (by rw [start,logs]; exact top) (by omega),views]

theorem digestFile_data {libfsId offset length blknr : Nat} (formed : Formed fs)
    (own : fs.OwnLog libfsId blknr) (shape : DataShape fs libfsId offset length blknr)
    (met : CallsMeet CallOk fs libfsId (.file inum offset length blknr))
    (done : digestFile fs libfsId inum offset length blknr = some fs') :
    DataDigested fs fs' inum offset length blknr := by
  obtain ⟨at₀,at₁,at₂,opened,first,rest,rfl⟩ := digestFile_parts done
  unfold CallsMeet at met
  simp only [opened,first] at met
  obtain ⟨headMet,runsMet⟩ := met
  obtain ⟨inode,found,typed,rfl⟩ := openFile_parts opened
  have formed₀ : Formed {fs with inodes := fs.inodes.set inum {inode with size := max inode.size (offset + length)}} :=
    formed.setInode found (Or.inl rfl)
  have cells := relabel_cell found inode.itype (max inode.size (offset + length))
  obtain ⟨mine,others⟩ := label_set found {inode with size := max inode.size (offset + length)} fs.sb
  obtain ⟨t,type⟩ := ne_none_iff_exists'.mp typed
  have before : fs.label inum = some (some t,inode.size) := by rw [label_eq found,type]
  have sized := mine.trans (show some (inode.itype,max inode.size (offset + length)) = some (some t,_) by rw [type])
  have ends := own.ends
  obtain ⟨_,low,high⟩ := own
  obtain ⟨some_,part | ⟨aligned,whole,room⟩⟩ := shape
  · obtain ⟨small,fits⟩ := part
    have blocks : nrBlocksOf length = 1 := by rw [nrBlocksOf,if_pos small]
    unfold digestFirst at first
    rw [if_pos (Or.inl small)] at first
    obtain ⟨formed₁,logs,labels,digested,written,around,blocks₁,others₁,log⟩ := digestHead_copied formed₀ rfl rfl some_
      fits (headMet (Or.inl small)) ⟨by simp only; omega,by simp only; omega⟩ first
    -- The one block is done, so the loop makes no pass.
    have ended : at₂ = at₁ := by
      have finished : digestFinished (nrBlocksOf length) at₁ = true := by simp [digestFinished,blocks,digested]
      rw [digestRuns,blocks] at rest
      unfold loop at rest
      rw [blocks] at finished
      rw [if_pos finished] at rest
      cases rest
      rfl
    subst ended
    refine ⟨formed₁,logs,fun j other => (labels j).trans (others j other),⟨t,inode.size,before,(labels inum).trans sized⟩,
      fun x low' high' => ?_,fun x out => ?_,fun j other => (others₁ j other).trans (cells j),fun m inside _ => log m inside⟩
    · have same : x / gBlockSizeBytes = offset / gBlockSizeBytes := by
        simp only [gBlockSizeBytes] at *
        omega
      rw [KernFs.byte,KernFs.dataByte,same,Nat.sub_self,add_zero]
      refine written _ ?_ ?_
      · simp only [gBlockSizeBytes] at *
        omega
      · simp only [gBlockSizeBytes] at *
        omega
    · by_cases same : x / gBlockSizeBytes = offset / gBlockSizeBytes
      · have out' : ¬ (offset % gBlockSizeBytes ≤ x % gBlockSizeBytes ∧
            x % gBlockSizeBytes < offset % gBlockSizeBytes + length) := by
          simp only [gBlockSizeBytes] at *
          omega
        have part := around _ out'
        rw [cells inum,←same] at part
        rcases part with old | ⟨unmapped,p,free,new⟩
        · exact Or.inl old
        · exact Or.inr ⟨unmapped,small,same,p,free,new⟩
      · refine Or.inl ?_
        rw [KernFs.byte,KernFs.byte,blocks₁ _ same,cells inum]
  · obtain ⟨large,blocks,count,place,short⟩ := whole_blocks low some_ aligned whole room
    unfold digestFirst at first
    rw [if_neg (by simp [not_lt.mpr large,aligned])] at first
    cases first
    have moved := digestRuns_moved formed₀ place rfl count rfl short runsMet
      (fun i bound => ⟨by simp only; omega,by simp only; omega⟩) rest
    refine ⟨moved.formed,moved.logs,fun j other => (moved.labels j).trans (others j other),
      ⟨t,inode.size,before,(moved.labels inum).trans sized⟩,fun x low' high' => ?_,fun x out => ?_,
      fun j other => (moved.others j other).trans (cells j),moved.log⟩
    · have bound : x / gBlockSizeBytes - offset / gBlockSizeBytes < nrBlocksOf length := by
        rw [blocks]
        simp only [gBlockSizeBytes] at *
        omega
      have bytes := moved.written _ bound (x % gBlockSizeBytes)
      have block : offset / gBlockSizeBytes + (x / gBlockSizeBytes - offset / gBlockSizeBytes) = x / gBlockSizeBytes :=
        Nat.add_sub_cancel' (Nat.div_le_div_right low')
      rw [block] at bytes
      exact bytes
    · refine Or.inl ?_
      have out' : ¬ (offset / gBlockSizeBytes ≤ x / gBlockSizeBytes ∧
          x / gBlockSizeBytes < offset / gBlockSizeBytes + nrBlocksOf length) := by
        rw [blocks]
        simp only [gBlockSizeBytes] at *
        omega
      rw [KernFs.byte,KernFs.byte,moved.kept _ out',cells inum]

def KernFs.readByte (fs : KernFs) (inum x : Nat) : Option UInt8 := do
  let inode ← fs.inodes[inum]?
  let (map,_) ← mlfsExtGetBlocks inode.root fs.sb (x / gBlockSizeBytes % 2 ^ 32) 1 false
  if map.ret = 0 then none
  else some (fs.disk (lblk2pblk table fs.map map.mPblk).1 (x % gBlockSizeBytes))

theorem readByte_parts {x : Nat} {v : UInt8} (read : fs.readByte inum x = some v) :
    ∃ inode map root sb, fs.inodes[inum]? = some inode ∧
      mlfsExtGetBlocks inode.root fs.sb (x / gBlockSizeBytes % 2 ^ 32) 1 false = some (map,root,sb) ∧ map.ret ≠ 0 ∧
      v = fs.disk (lblk2pblk table fs.map map.mPblk).1 (x % gBlockSizeBytes) := by
  obtain ⟨inode,found,read⟩ := bind_eq_some_iff.mp read
  obtain ⟨⟨map,root,sb⟩,got,read⟩ := bind_eq_some_iff.mp read
  simp only at read
  split at read
  · cases read
  · rename_i hit
    cases read
    exact ⟨inode,map,root,sb,found,got,hit,rfl⟩

theorem Formed.readByte_eq (formed : Formed fs) (inum : Nat) {x : Nat}
    (inside : x / gBlockSizeBytes < extMaxBlocks) : fs.readByte inum x = fs.byte inum x := by
  have whole : x / gBlockSizeBytes % 2 ^ 32 = x / gBlockSizeBytes := Nat.mod_eq_of_lt (inside.trans (by decide))
  cases found : fs.inodes[inum]? with
  | none => simp [KernFs.readByte,KernFs.byte,KernFs.cell,KernFs.fileMap,found]
  | some inode =>
    obtain ⟨held,consistent,_⟩ := formed.consistent found
    obtain ⟨result,done,hit,miss⟩ := lookup_ok consistent (Nat.lt_add_one 0) inside
    have here := fileMap_eq found
    simp only [File.map] at done hit miss
    simp only [KernFs.readByte,found,whole,done,bind_eq_bind,bind_some,KernFs.byte,KernFs.cell,here]
    cases mapped : blockMap (extents inode.root.node) (x / gBlockSizeBytes) with
    | none => rw [if_pos (miss mapped),Option.map_none]
    | some p =>
      have reply := hit (by simp [mapped])
      have first := reply.agrees 0 reply.positive
      rw [add_zero,add_zero,mapped] at first
      cases first
      rw [if_neg (Nat.ne_of_gt reply.positive),lblk2pblk_home,map_some]
      rfl

def LogEntry.writes (fs : KernFs) (inum x : Nat) : LogEntry → Option UInt8
  | .file i offset length blknr =>
    if i = inum ∧ offset ≤ x ∧ x < offset + length then some (fs.dataByte offset blknr x) else none
  | .inode .. | .unlink _ | .alloc .. => none

def Action.writes (fs : KernFs) (inum x : Nat) : Action → Option UInt8
  | .digest _ entry => entry.writes fs inum x
  | .write .. | .flush .. => none

def lastWritten (fs : KernFs) (inum x : Nat) (value : Option UInt8) : List Action → Option UInt8
  | [] => value
  | action :: rest =>
    match step fs action with
    | none => none
    | some next => lastWritten next inum x ((action.writes fs inum x).or value) rest

def DataAction (fs : KernFs) : Action → Prop
  | .digest libfsId (.file _ offset length blknr) => DataShape fs libfsId offset length blknr
  | .digest _ (.inode ..) | .digest _ (.unlink _) | .digest _ (.alloc ..) => False
  | .write .. | .flush .. => True

def DataOk (fs : KernFs) : Action → Prop
  | .digest libfsId entry => CallsMeet CallOk fs libfsId entry
  | .write .. => True
  | .flush .. => FlushApart fs

theorem step_bytes {action : Action} (formed : Formed fs) (data : DataAction fs action)
    (ok : DataOk fs action) (done : step fs action = some fs') :
    Formed fs' ∧ ∀ inum x, match action.writes fs inum x with
      | some v => fs'.byte inum x = some v
      | none => ∀ v, fs.byte inum x = some v → fs'.byte inum x = some v := by
  cases action with
  | write libfsId blk offset size bytes =>
    obtain ⟨own,rfl⟩ := step_write.mp done
    have formed' : Formed (logWrite fs blk offset size bytes) :=
      formed.transfer (formed.owned.write own offset size bytes).1 rfl rfl
    obtain ⟨_,rest⟩ := formed.owned.view_write own offset size bytes
    refine ⟨formed',fun inum x v before => ?_⟩
    have same : (logWrite fs blk offset size bytes).cell inum (x / gBlockSizeBytes) = fs.cell inum (x / gBlockSizeBytes) := by
      refine cell_congr rfl fun p mapped => ?_
      have below := formed.below (fileMap_owned mapped)
      have low : fs.logStart + libfsId * gLogSize ≤ blk := own.2.1
      exact rest p (by omega) (by omega)
    rw [KernFs.byte,same]
    exact before
  | flush rest referenced =>
    cases done
    refine ⟨formed.flush rest referenced,fun inum x v before => ?_⟩
    have same : (syncAllBuffers fs rest referenced).cell inum (x / gBlockSizeBytes) = fs.cell inum (x / gBlockSizeBytes) :=
      cell_congr rfl fun p mapped => view_flush ok rest referenced (Or.inl (fileMap_owned mapped))
    rw [KernFs.byte,same]
    exact before
  | digest libfsId entry =>
    obtain ⟨from_,digested⟩ := step_digest.mp done
    cases entry with
    | file i offset length blknr =>
      have result := digestFile_data formed from_ data ok digested
      refine ⟨result.formed,fun inum x => ?_⟩
      simp only [Action.writes,LogEntry.writes]
      split
      · rename_i v wrote
        split at wrote
        · rename_i here
          obtain ⟨rfl,low,high⟩ := here
          cases wrote
          exact result.written x low high
        · cases wrote
      · rename_i missed
        split at missed
        · cases missed
        · rename_i elsewhere
          intro v before
          by_cases own : inum = i
          · subst own
            rcases result.kept x (fun range => elsewhere ⟨rfl,range⟩) with old | ⟨unmapped,_⟩
            · exact old.trans before
            · rw [unmapped] at before
              cases before
          · exact (byte_of_cell (result.others inum own) x).trans before
    | inode | unlink | alloc => exact data.elim

theorem run_formed {actions : List Action} (start : Formed fs)
    (guarded : Guarded step (fun fs action => DataAction fs action ∧ DataOk fs action) fs actions)
    (reached : run step fs actions = some fs') : Formed fs' :=
  invariant_run step _ Formed (fun _ _ _ known met stepped => (step_bytes known met.1 met.2 stepped).1)
    fs fs' actions start guarded reached

theorem digested_bytes_read_back (fs fs' : KernFs) (actions : List Action) (start : Formed fs)
    (guarded : Guarded step (fun fs action => DataAction fs action ∧ DataOk fs action) fs actions)
    (reached : run step fs actions = some fs') (inum x : Nat) (inside : x / gBlockSizeBytes < extMaxBlocks) :
    (∀ v, lastWritten fs inum x (fs.readByte inum x) actions = some v → fs'.readByte inum x = some v) ∧
    ∀ libfsId i offset length blknr fs'', DataAction fs' (.digest libfsId (.file i offset length blknr)) →
      DataOk fs' (.digest libfsId (.file i offset length blknr)) → i ≠ inum →
      step fs' (.digest libfsId (.file i offset length blknr)) = some fs'' →
      fs''.readByte inum x = fs'.readByte inum x := by
  have formed : Formed fs' := run_formed start guarded reached
  constructor
  · -- Along the run, what is expected of the byte is what a read finds.
    have along : ∀ actions fs value, Formed fs →
        Guarded step (fun fs action => DataAction fs action ∧ DataOk fs action) fs actions →
        run step fs actions = some fs' → (∀ v, value = some v → fs.byte inum x = some v) →
        ∀ v, lastWritten fs inum x value actions = some v → fs'.byte inum x = some v := by
      intro actions
      induction actions with
      | nil =>
        intro fs value _ _ ran known v expected
        cases ran
        exact known v expected
      | cons action rest ih =>
        intro fs value formed guarded ran known v expected
        obtain ⟨next,stepped,later⟩ := (run_cons step fs fs' action rest).mp ran
        obtain ⟨formed',bytes⟩ := step_bytes formed guarded.1.1 guarded.1.2 stepped
        rw [lastWritten,stepped] at expected
        refine ih next _ formed' (guarded.tail stepped) later (fun w now => ?_) v expected
        have here := bytes inum x
        cases wrote : action.writes fs inum x with
        | some u =>
          rw [wrote] at here now
          cases now
          exact here
        | none =>
          rw [wrote] at here now
          exact here w (known w now)
    intro v expected
    rw [formed.readByte_eq inum inside]
    refine along actions fs _ start guarded reached (fun w known => ?_) v expected
    rwa [start.readByte_eq inum inside] at known
  · intro libfsId i offset length blknr fs'' data ok other stepped
    obtain ⟨from_,digested⟩ := step_digest.mp stepped
    have result := digestFile_data formed from_ data ok digested
    rw [result.formed.readByte_eq inum inside,formed.readByte_eq inum inside]
    exact byte_of_cell (result.others inum (Ne.symm other)) x

def KernFs.emptyFiles (numBlocks reservedBlocks logStart logs files : Nat) : KernFs :=
  {KernFs.fresh numBlocks reservedBlocks logStart logs files with
    inodes := List.replicate files ⟨some .file,0,emptyRoot⟩}

theorem emptyFiles_formed {numBlocks reservedBlocks logStart logs : Nat} (files : Nat)
    (layout : mlfsExtSpaceRoot < reservedBlocks) (space : reservedBlocks < numBlocks) (area : numBlocks ≤ logStart)
    (small : logStart + logs * gLogSize ≤ 2 ^ 32) :
    Formed (KernFs.emptyFiles numBlocks reservedBlocks logStart logs files) := by
  have reserved : 0 < reservedBlocks := lt_of_le_of_lt (Nat.zero_le _) layout
  refine ⟨fun inode member => ?_,⟨0,?_⟩,layout,area,Mapped.transfer (fresh_placed files reserved space area small).mapped rfl rfl rfl⟩
  · cases List.eq_of_mem_replicate member
    exact ⟨Or.inl rfl,⟨fun _ member => absurd member List.not_mem_nil,.nil⟩⟩
  · have noData : (KernFs.emptyFiles numBlocks reservedBlocks logStart logs files).dataBlocks = 0 := by
      simp [KernFs.dataBlocks,KernFs.emptyFiles,emptyRoot,List.sum_replicate]
    have noNodes : (KernFs.emptyFiles numBlocks reservedBlocks logStart logs files).treeBlocks = 0 := by
      simp [KernFs.treeBlocks,KernFs.emptyFiles,emptyRoot,List.sum_replicate]
    rw [noData,noNodes]
    exact init_working reserved space

instance (fs : KernFs) (libfsId offset length blknr : Nat) : Decidable (DataShape fs libfsId offset length blknr) := by
  unfold DataShape
  infer_instance

instance (fs : KernFs) : ∀ action, Decidable (DataAction fs action)
  | .digest libfsId (.file _ offset length blknr) => inferInstanceAs (Decidable (DataShape fs libfsId offset length blknr))
  | .digest _ (.inode ..) | .digest _ (.unlink _) | .digest _ (.alloc ..) => inferInstanceAs (Decidable False)
  | .write .. | .flush .. => isTrue trivial

instance (fs : KernFs) (inum mLblk mLen : Nat) : Decidable (CallOk fs inum mLblk mLen) := by
  unfold CallOk
  infer_instance

theorem flushApart_iff : FlushApart fs ↔ ∀ b ∈ fs.sb.bdBhDirty,
    (∀ c ∈ fs.dataBlocks, fs.home c ≠ b) ∧ ∀ i < fs.logs * gLogSize, fs.home (fs.logStart + i) ≠ b := by
  constructor
  · intro apart b listed
    exact ⟨fun c data => apart b listed c (Or.inl data),
      fun i bound => apart b listed _ (Or.inr ⟨Nat.le_add_right _ _,Nat.add_lt_add_left bound _⟩)⟩
  · intro apart b listed c used
    obtain ⟨data,logs⟩ := apart b listed
    rcases used with owned | ⟨low,high⟩
    · exact data c owned
    · have there := logs (c - fs.logStart) (by omega)
      rwa [Nat.add_sub_cancel' low] at there

instance (fs : KernFs) : Decidable (FlushApart fs) := decidable_of_iff' _ flushApart_iff

instance (fs : KernFs) : ∀ action, Decidable (DataOk fs action)
  | .digest libfsId entry => inferInstanceAs (Decidable (CallsMeet CallOk fs libfsId entry))
  | .write .. => isTrue trivial
  | .flush .. => inferInstanceAs (Decidable (FlushApart fs))

def overlappingActions : List Action :=
  [.write 0 1001 0 gBlockSizeBytes (fun _ => 65),.write 0 1002 0 gBlockSizeBytes (fun _ => 66),
    .digest 0 (.file 0 (2 * gBlockSizeBytes) (2 * gBlockSizeBytes) 1001),.write 0 1010 0 10 (fun _ => 67),
    .digest 0 (.file 0 (3 * gBlockSizeBytes) 10 1010),.flush (fun _ _ => 0) [],
    .digest 0 (.file 1 (5 * gBlockSizeBytes + 100) 10 1010),
    .digest 0 (.file 0 (2 * gBlockSizeBytes) gBlockSizeBytes 1001)]

theorem digested_bytes_read_back_overlapping :
    ∃ fs', run step (KernFs.emptyFiles 64 8 1000 1 2) overlappingActions = some fs' ∧
      fs'.readByte 0 (3 * gBlockSizeBytes + 4) = some 67 ∧ fs'.readByte 0 (3 * gBlockSizeBytes + 40) = some 66 := by
  have guarded : Guarded step (fun fs action => DataAction fs action ∧ DataOk fs action)
      (KernFs.emptyFiles 64 8 1000 1 2) overlappingActions := by decide +kernel
  obtain ⟨fs',reached⟩ : ∃ fs', run step (KernFs.emptyFiles 64 8 1000 1 2) overlappingActions = some fs' := by decide +kernel
  have bytes := fun x => (digested_bytes_read_back _ fs' _
    (emptyFiles_formed 2 (by decide) (by decide) (by decide) (by decide)) guarded reached 0 x)
  exact ⟨fs',reached,(bytes _ (by decide)).1 67 (by decide +kernel),(bytes _ (by decide)).1 66 (by decide +kernel)⟩

-- Blocks 10 to 12 of file 1 are written, then blocks 9 to 11, which maps 10 and 11 a second time.
def remappedActions : List Action :=
  [.write 0 616970 0 gBlockSizeBytes (fun _ => 65),
    .digest 0 (.file 1 (10 * gBlockSizeBytes) (3 * gBlockSizeBytes) 616970),
    .write 0 616981 0 gBlockSizeBytes (fun _ => 69),
    .digest 0 (.file 1 (9 * gBlockSizeBytes) (3 * gBlockSizeBytes) 616980)]

theorem remapped_block_reads_old_data :
    Guarded step DataAction (KernFs.emptyFiles 589854 27106 616960 5 2) remappedActions ∧
    ∃ fs, run step (KernFs.emptyFiles 589854 27106 616960 5 2) remappedActions = some fs ∧
      lastWritten (KernFs.emptyFiles 589854 27106 616960 5 2) 1 (10 * gBlockSizeBytes)
        ((KernFs.emptyFiles 589854 27106 616960 5 2).readByte 1 (10 * gBlockSizeBytes)) remappedActions = some 69 ∧
      fs.readByte 1 (10 * gBlockSizeBytes) = some 65 := by decide +kernel

end Assise.Digest
