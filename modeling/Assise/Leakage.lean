import Assise.DigestFiles

-- Two histories side by side that differ in what is written to other files: whether the bytes of one
-- file can tell them apart.
namespace Assise.Digest

open Balloc Extents MapTable FileMap Lib.Runs Lib.Spans Option
open LogRing (gLogSize)

def KernFs.withDisk (fs : KernFs) (disk : Disk) : KernFs := {fs with disk := disk}

def KernFs.fileBlocks (fs : KernFs) (inum : Nat) : Multiset Nat :=
  (fs.inodes[inum]?.map fun inode => extentBlocks (extents inode.root.node)).getD 0

variable {inode : Inode} {fs fs' : KernFs} {p mLblk mLen l count k b libfsId length blknr offset : Nat} {map : MapResult}

variable {inum : Nat}

theorem fileBlocks_eq (found : fs.inodes[inum]? = some inode) :
    fs.fileBlocks inum = extentBlocks (extents inode.root.node) := by
  rw [KernFs.fileBlocks,found]
  rfl

theorem mem_fileBlocks (member : p ∈ fs.fileBlocks inum) :
    ∃ inode, fs.inodes[inum]? = some inode ∧ p ∈ extentBlocks (extents inode.root.node) := by
  cases found : fs.inodes[inum]? with
  | none =>
    rw [KernFs.fileBlocks,found] at member
    cases member
  | some inode => exact ⟨inode,rfl,by rwa [fileBlocks_eq found] at member⟩

theorem fileBlocks_data (member : p ∈ fs.fileBlocks inum) : p ∈ fs.dataBlocks := by
  obtain ⟨inode,found,named⟩ := mem_fileBlocks member
  exact mem_dataBlocks found named

theorem Owned.fileBlocks_apart (owned : Owned fs) {i j : Nat} (first : p ∈ fs.fileBlocks i)
    (second : p ∈ fs.fileBlocks j) : i = j := by
  obtain ⟨inodeI,foundI,namedI⟩ := mem_fileBlocks first
  obtain ⟨inodeJ,foundJ,namedJ⟩ := mem_fileBlocks second
  exact sum_map_apart owned.dataBlocks_nodup foundI foundJ namedI namedJ

theorem fileBlocks_set {inum j : Nat} {inode' : Inode} {sb : SuperBlock} (other : j ≠ inum) :
    ({fs with sb := sb,inodes := fs.inodes.set inum inode'} : KernFs).fileBlocks j = fs.fileBlocks j := by
  unfold KernFs.fileBlocks
  rw [List.getElem?_set_ne (Ne.symm other)]

theorem fileBlocks_own {inode' : Inode} {sb : SuperBlock}
    (found : fs.inodes[inum]? = some inode) :
    ({fs with sb := sb,inodes := fs.inodes.set inum inode'} : KernFs).fileBlocks inum =
      extentBlocks (extents inode'.root.node) := by
  have inside : inum < fs.inodes.length := (List.getElem?_eq_some_iff.mp found).1
  simp [KernFs.fileBlocks,inside]

theorem getBlocks_fileBlocks
    (done : fs.getBlocks inum mLblk mLen = some (map,fs')) :
    (∀ j, j ≠ inum → fs'.fileBlocks j = fs.fileBlocks j) ∧
    (∀ i < map.ret, map.mPblk + i ∈ fs'.fileBlocks inum) ∧
    (fs' = fs ∨ ∃ sb₁, Created fs map sb₁ fs' ∧
      fs'.fileBlocks inum = fs.fileBlocks inum + span map.mPblk map.ret) := by
  have cases_ := create_cases done
  obtain ⟨inode,root,sb,found,got,rfl⟩ := getBlocks_parts done
  have now : ({fs with sb := sb,inodes := fs.inodes.set inum {inode with root := root}} : KernFs).fileBlocks inum =
      extentBlocks (extents root.node) := fileBlocks_own found
  refine ⟨fun j other => fileBlocks_set other,fun i bound => ?_,?_⟩
  · rw [now]
    exact getBlocks_owned got i bound
  · rcases cases_ with same | ⟨sb₁,created⟩
    · exact Or.inl same
    · refine Or.inr ⟨sb₁,created,?_⟩
      obtain ⟨data,_,dataSum,_,after⟩ := set_blocks found
      have sum := created.data
      rw [(after {inode with root := root} sb).1,dataSum,add_assoc] at sum
      rw [now,fileBlocks_eq found]
      exact add_left_cancel sum

structure Paired (S : Nat → Prop) (fs₁ fs₂ : KernFs) : Prop where
  control : fs₂ = fs₁.withDisk fs₂.disk
  agree : ∀ b, S b → ∀ o < gBlockSizeBytes, fs₁.view b o = fs₂.view b o

section Paired
variable {S : Nat → Prop} {fs₁ fs₂ : KernFs}

theorem Paired.mono {S' : Nat → Prop} (paired : Paired S fs₁ fs₂) (less : ∀ b, S' b → S b) : Paired S' fs₁ fs₂ :=
  ⟨paired.control,fun b member => paired.agree b (less b member)⟩

variable {fs₁ fs₂ fs₁' : KernFs}

theorem Paired.getBlocks (paired : Paired S fs₁ fs₂)
    (done : fs₁.getBlocks inum mLblk mLen = some (map,fs₁')) :
    ∃ fs₂', fs₂.getBlocks inum mLblk mLen = some (map,fs₂') ∧ Paired S fs₁' fs₂' := by
  obtain ⟨control,agree⟩ := paired
  obtain ⟨inode,root,sb,found,got,rfl⟩ := getBlocks_parts done
  refine ⟨{fs₂ with sb := sb,inodes := fs₂.inodes.set inum {inode with root := root}},?_,?_,?_⟩
  · rw [control]
    simp only [KernFs.getBlocks,KernFs.withDisk,found,bind_eq_bind,bind_some,got]
  · rw [control]
    rfl
  · intro b member
    rw [control] at agree ⊢
    exact agree b member

variable {stop b : Nat}

section
variable (paired : Paired S fs₁ fs₂)
include paired

theorem Paired.truncate {inum start : Nat}
    (done : fs₁.truncate inum start stop = some fs₁') :
    ∃ fs₂', fs₂.truncate inum start stop = some fs₂' ∧ Paired S fs₁' fs₂' := by
  obtain ⟨control,agree⟩ := paired
  obtain ⟨inode,root,sb,found,got,rfl⟩ := truncate_parts done
  refine ⟨{fs₂ with sb := sb,inodes := fs₂.inodes.set inum {inode with root := root}},?_,?_,?_⟩
  · rw [control]
    simp only [KernFs.truncate,KernFs.withDisk,found,bind_eq_bind,bind_some,got]
  · rw [control]
    rfl
  · intro b member
    rw [control] at agree ⊢
    exact agree b member

theorem Paired.setInodes (inodes : List Inode) :
    Paired S {fs₁ with inodes := inodes} {fs₂ with inodes := inodes} := by
  obtain ⟨control,agree⟩ := paired
  refine ⟨?_,fun b member => ?_⟩
  · rw [control]
    rfl
  · rw [control] at agree ⊢
    exact agree b member

theorem Paired.owned (owned : Owned fs₁) : Owned fs₂ := by
  rw [paired.control]
  exact ⟨owned.balanced,owned.area,Mapped.transfer owned.mapped rfl rfl rfl⟩

theorem Paired.data (data : b ∈ fs₁.dataBlocks) : b ∈ fs₂.dataBlocks := by
  rw [paired.control]
  exact data

theorem Paired.log (log : fs₁.InLogs b) : fs₂.InLogs b := by
  rw [paired.control]
  exact log

end

end Paired

def exchange (k l count b : Nat) : Nat :=
  if k ≤ b ∧ b < k + count then l + (b - k) else if l ≤ b ∧ b < l + count then k + (b - l) else b

theorem Owned.view_swaps (owned : Owned fs)
    (data : ∀ i < count, k + i ∈ fs.dataBlocks) (log : ∀ i < count, fs.InLogs (l + i)) :
    Owned {fs with map := updateMapTables fs.map k l count} ∧ ∀ b < fs.logStart + fs.logs * gLogSize,
      ({fs with map := updateMapTables fs.map k l count} : KernFs).view b = fs.view (exchange k l count b) := by
  induction count with
  | zero =>
    refine ⟨owned,fun b _ => ?_⟩
    have none : exchange k l 0 b = b := by
      unfold exchange
      rw [if_neg (by omega),if_neg (by omega)]
    rw [none]
    rfl
  | succ count ih =>
    obtain ⟨owned₁,views⟩ := ih (fun i bound => data i (by omega)) (fun i bound => log i (by omega))
    have low := owned.below (Or.inl (data count (by omega)))
    have high : fs.logStart ≤ l + count ∧ l + count < _ := log count (by omega)
    have swapped := owned₁.swap (data count (by omega)) (log count (by omega))
    refine ⟨swapped.1,fun b inside => ?_⟩
    have moved : Equiv.swap (k + count) (l + count) b < fs.logStart + fs.logs * gLogSize :=
      swap_lt (by omega) high.2 inside
    have one := owned₁.view_swap (data count (by omega)) (log count (by omega)) inside
    refine one.trans ((views _ moved).trans ?_)
    -- The pair exchanged last is none of the earlier ones.
    have start : fs.logStart ≤ l + 0 := (log 0 (by omega)).1
    have same : exchange k l count (Equiv.swap (k + count) (l + count) b) = exchange k l (count + 1) b := by
      rw [Equiv.swap_apply_def]
      unfold exchange
      split_ifs <;> omega
    rw [same]

section Moves
variable {S : Nat → Prop} {fs₁ fs₂ : KernFs}

theorem Paired.swaps (paired : Paired S fs₁ fs₂) (owned : Owned fs₁)
    (data : ∀ i < count, k + i ∈ fs₁.dataBlocks) (log : ∀ i < count, fs₁.InLogs (l + i)) :
    Paired (fun b => b < fs₁.logStart + fs₁.logs * gLogSize ∧ S (exchange k l count b))
      {fs₁ with map := updateMapTables fs₁.map k l count} {fs₂ with map := updateMapTables fs₂.map k l count} := by
  obtain ⟨_,views₁⟩ := owned.view_swaps data log
  obtain ⟨_,views₂⟩ := (paired.owned owned).view_swaps (fun i bound => paired.data (data i bound))
    (fun i bound => paired.log (log i bound))
  have control := paired.control
  refine ⟨?_,fun b member o small => ?_⟩
  · rw [control]
    rfl
  · have top : fs₂.logStart + fs₂.logs * gLogSize = fs₁.logStart + fs₁.logs * gLogSize := by
      rw [control]
      rfl
    rw [views₁ b member.1,views₂ b (by rw [top]; exact member.1)]
    exact paired.agree _ member.2 o small

variable {offset : Nat}

theorem Paired.copy {size : Nat} (paired : Paired S fs₁ fs₂) (owned : Owned fs₁)
    (data : k ∈ fs₁.dataBlocks) (log : fs₁.InLogs l) (done : fs₁.copyBlock l k offset size = some fs₁') :
    ∃ fs₂', fs₂.copyBlock l k offset size = some fs₂' ∧
      Paired (fun b => b < fs₁.logStart + fs₁.logs * gLogSize ∧ S b ∧
        (b = k → ∀ o, offset ≤ o → o < offset + size → fs₁.view l o = fs₂.view l o)) fs₁' fs₂' := by
  have control := paired.control
  obtain ⟨positive,rfl⟩ := copyBlock_parts done
  obtain ⟨disk,done₂⟩ : ∃ disk, fs₂.copyBlock l k offset size = some
      (({fs₁ with map := (lblk2pblk table (lblk2pblk table fs₁.map k).2 l).2} : KernFs).withDisk disk) := by
    rw [control]
    refine ⟨copyBytes fs₂.disk (lblk2pblk table (lblk2pblk table fs₁.map k).2 l).1 (lblk2pblk table fs₁.map k).1
      offset size,?_⟩
    simp only [KernFs.copyBlock,KernFs.withDisk,if_neg (Nat.ne_of_gt positive)]
  refine ⟨_,done₂,rfl,fun b member o small => ?_⟩
  obtain ⟨_,_,_,_,_,target₁,rest₁⟩ := owned.view_copy data log done
  obtain ⟨_,_,_,_,_,target₂,rest₂⟩ := (paired.owned owned).view_copy (paired.data data) (paired.log log) done₂
  have top : fs₂.logStart + fs₂.logs * gLogSize = fs₁.logStart + fs₁.logs * gLogSize := by
    rw [control]
    rfl
  obtain ⟨inside,known,part⟩ := member
  by_cases same : b = k
  · subst same
    rw [target₁,target₂,splice,splice]
    split
    · rename_i range
      exact part rfl o range.1 range.2
    · exact paired.agree b known o small
  · rw [rest₁ b inside same,rest₂ b (by rw [top]; exact inside) same]
    exact paired.agree b known o small

end Moves

theorem exchange_other (notK : ¬ (k ≤ b ∧ b < k + count)) (notL : ¬ (l ≤ b ∧ b < l + count)) :
    exchange k l count b = b := by
  rw [exchange,if_neg notK,if_neg notL]

theorem Paired.pass {S : Nat → Prop} {more length2allocate : Nat}
    (paired : Paired S fs₁ fs₂) (owned : Owned fs₁) (data : ∀ i < more + 1, k + i ∈ fs₁.dataBlocks)
    (log : ∀ i < more + 1, fs₁.InLogs (l + i))
    (done : ({fs₁ with map := updateMapTables fs₁.map k l more} : KernFs).digestLast length2allocate (more + 1)
      (k + more) (l + more) = some fs₁') :
    ∃ fs₂', ({fs₂ with map := updateMapTables fs₂.map k l more} : KernFs).digestLast length2allocate (more + 1)
        (k + more) (l + more) = some fs₂' ∧
      Paired (fun b => b < fs₁.logStart + fs₁.logs * gLogSize ∧ S b ∧ ¬ (k ≤ b ∧ b < k + (more + 1)) ∧
        ¬ (l ≤ b ∧ b < l + (more + 1))) fs₁' fs₂' ∧
      fs₁'.inodes = fs₁.inodes ∧ fs₁'.logStart = fs₁.logStart ∧ fs₁'.logs = fs₁.logs := by
  unfold KernFs.digestLast at done ⊢
  split at done
  · rename_i ends
    have dataMore : ∀ i < more, k + i ∈ fs₁.dataBlocks := fun i bound => data i (by omega)
    have logMore : ∀ i < more, fs₁.InLogs (l + i) := fun i bound => log i (by omega)
    have swapped := paired.swaps owned dataMore logMore
    have owned' := (owned.view_swaps dataMore logMore).1
    obtain ⟨fs₂',copied,pair⟩ := swapped.copy owned' (data more (by omega)) (log more (by omega)) done
    obtain ⟨_,inodes,start,logs,_⟩ := owned'.view_copy (data more (by omega)) (log more (by omega)) done
    refine ⟨fs₂',by rw [if_pos ends]; exact copied,pair.mono ?_,inodes,start,logs⟩
    rintro b ⟨top,member,notK,notL⟩
    refine ⟨top,⟨top,?_⟩,fun hit => absurd hit (by omega)⟩
    rw [exchange_other (by omega) (by omega)]
    exact member
  · rename_i whole
    cases done
    have swapped := paired.swaps owned data log
    refine ⟨_,if_neg whole,swapped.mono ?_,rfl,rfl,rfl⟩
    rintro b ⟨top,member,notK,notL⟩
    refine ⟨top,?_⟩
    rw [exchange_other notK notL]
    exact member

structure InStep (f : Nat) (ahead : Nat → Prop) (at₁ at₂ : Digesting) : Prop where
  same : at₂ = {at₁ with fs := at₂.fs}
  paired : Paired (fun b => b ∈ at₁.fs.fileBlocks f ∨ ahead b) at₁.fs at₂.fs
  owned : Owned at₁.fs
  low : at₁.fs.logStart * gBlockSizeBytes ≤ at₁.data

section InStep
variable {f inum nrBlocks logEnd : Nat} {ahead : Nat → Prop} {at₁ at₂ next₁ : Digesting}

theorem pass_logs {data : Nat} (low : fs.logStart * gBlockSizeBytes ≤ data)
    (high : logEnd ≤ fs.logStart + fs.logs * gLogSize) (inside : ¬ logEnd ≤ data / gBlockSizeBytes + count) :
    ∀ i < count + 1, fs.InLogs (data / gBlockSizeBytes + i) := by
  intro i bound
  unfold KernFs.InLogs
  simp only [gBlockSizeBytes] at *
  omega

theorem getBlocks_logs
    (done : fs.getBlocks inum mLblk mLen = some (map,fs')) : fs'.logStart = fs.logStart ∧ fs'.logs = fs.logs := by
  obtain ⟨_,_,_,_,_,rfl⟩ := getBlocks_parts done
  exact ⟨rfl,rfl⟩

theorem digestRun_other (other : f ≠ inum) (related : InStep f (fun _ => False) at₁ at₂)
    (high : logEnd ≤ at₁.fs.logStart + at₁.fs.logs * gLogSize)
    (done : digestRun inum nrBlocks logEnd at₁ = some next₁) :
    ∃ next₂, digestRun inum nrBlocks logEnd at₂ = some next₂ ∧ InStep f (fun _ => False) next₁ next₂ ∧
      next₁.fs.logStart = at₁.fs.logStart ∧ next₁.fs.logs = at₁.fs.logs := by
  have finished := done
  obtain ⟨same,paired,owned,low⟩ := related
  obtain ⟨aligned,map,mid₁,end₁,got,checked,inside,last,rfl⟩ := digestRun_iff.mp done
  obtain ⟨more,count⟩ : ∃ more, map.ret = more + 1 := ⟨map.ret - 1,by omega⟩
  have before : map.ret - 1 = more := by omega
  obtain ⟨mid₂,got₂,paired'⟩ := paired.getBlocks got
  have owned' := owned.create got
  obtain ⟨start,logs⟩ := getBlocks_logs got
  obtain ⟨others,mine,_⟩ := getBlocks_fileBlocks got
  rw [before] at inside last
  have log := pass_logs (by rw [start]; exact low) (by rw [start,logs]; exact high) inside
  have data : ∀ i < more + 1, map.mPblk + i ∈ mid₁.dataBlocks := fun i bound => fileBlocks_data (mine i (by omega))
  rw [count] at last
  obtain ⟨end₂,last₂,pair,inodes,startE,logsE⟩ := paired'.pass owned' data log last
  have blocks : end₁.fileBlocks f = at₁.fs.fileBlocks f := by
    rw [←others f other]
    unfold KernFs.fileBlocks
    rw [inodes]
  have ownedE : Owned end₁ := by
    obtain ⟨effects,_⟩ := digestRun_effects (P:=fun _ _ _ _ => True) trivial low high finished
    exact effects_owned effects owned
  refine ⟨⟨end₂,_,_,_,_⟩,digestRun_iff.mpr ?_,⟨rfl,pair.mono ?_,ownedE,?_⟩,startE.trans start,logsE.trans logs⟩
  · rw [same]
    refine ⟨aligned,map,mid₂,end₂,got₂,checked,by rw [before]; exact inside,?_,rfl⟩
    rw [before,count]
    exact last₂
  · rintro b (member | none)
    · rw [blocks] at member
      have member' : b ∈ mid₁.fileBlocks f := by rwa [others f other]
      have below := owned'.below (Or.inl (fileBlocks_data member'))
      have first : mid₁.logStart ≤ at₁.data / gBlockSizeBytes + 0 := (log 0 (by omega)).1
      refine ⟨by omega,Or.inl member,fun range => ?_,by omega⟩
      have taken := mine (b - map.mPblk) (by omega)
      rw [Nat.add_sub_cancel' range.1] at taken
      exact other (owned'.fileBlocks_apart member' taken)
    · exact none.elim
  · simp only [startE,start]
    omega

variable {length offset stop : Nat}

theorem digestHead_other (other : f ≠ inum) (related : InStep f (fun _ => False) at₁ at₂)
    (log : at₁.fs.InLogs (at₁.data / gBlockSizeBytes)) (done : digestHead inum offset length at₁ = some next₁) :
    ∃ next₂, digestHead inum offset length at₂ = some next₂ ∧ InStep f (fun _ => False) next₁ next₂ ∧
      next₁.fs.logStart = at₁.fs.logStart ∧ next₁.fs.logs = at₁.fs.logs := by
  obtain ⟨same,paired,owned,low⟩ := related
  obtain ⟨map,mid₁,end₁,got,one,copied,rfl⟩ := digestHead_iff.mp done
  obtain ⟨mid₂,got₂,paired'⟩ := paired.getBlocks got
  have owned' := owned.create got
  obtain ⟨start,logs⟩ := getBlocks_logs got
  obtain ⟨others,mine,_⟩ := getBlocks_fileBlocks got
  have block := mine 0 (by omega)
  have log' : mid₁.InLogs (at₁.data / gBlockSizeBytes) := log.transfer ⟨start,logs⟩
  obtain ⟨end₂,copied₂,pair⟩ := paired'.copy owned' (fileBlocks_data block) log' copied
  obtain ⟨ownedE,inodes,startE,logsE,_⟩ := owned'.view_copy (fileBlocks_data block) log' copied
  have blocks : end₁.fileBlocks f = at₁.fs.fileBlocks f := by
    rw [←others f other]
    unfold KernFs.fileBlocks
    rw [inodes]
  refine ⟨⟨end₂,_,_,_,_⟩,digestHead_iff.mpr ?_,⟨rfl,pair.mono ?_,ownedE,?_⟩,startE.trans start,logsE.trans logs⟩
  · rw [same]
    exact ⟨map,mid₂,end₂,got₂,one,copied₂,rfl⟩
  · rintro b (member | none)
    · rw [blocks] at member
      have member' : b ∈ mid₁.fileBlocks f := by rwa [others f other]
      have below := owned'.below (Or.inl (fileBlocks_data member'))
      refine ⟨by omega,Or.inl member,fun hit => ?_⟩
      rw [hit] at member'
      exact absurd (owned'.fileBlocks_apart member' block) other
    · exact none.elim
  · simp only [startE,start]
    omega

theorem digestRun_own (related : InStep f (fun b => at₁.data / gBlockSizeBytes ≤ b ∧ b < stop) at₁ at₂)
    (aligned : at₁.data % gBlockSizeBytes = 0) (high : logEnd ≤ at₁.fs.logStart + at₁.fs.logs * gLogSize)
    (left : at₁.length2allocate = (nrBlocks - at₁.nrDigestedBlocks) * gBlockSizeBytes)
    (rest : at₁.data / gBlockSizeBytes + (nrBlocks - at₁.nrDigestedBlocks) = stop)
    (top : stop ≤ at₁.fs.logStart + at₁.fs.logs * gLogSize)
    (done : digestRun f nrBlocks logEnd at₁ = some next₁) :
    ∃ next₂, digestRun f nrBlocks logEnd at₂ = some next₂ ∧
      InStep f (fun b => next₁.data / gBlockSizeBytes ≤ b ∧ b < stop) next₁ next₂ ∧
      next₁.data % gBlockSizeBytes = 0 ∧ next₁.fs.logStart = at₁.fs.logStart ∧ next₁.fs.logs = at₁.fs.logs ∧
      next₁.length2allocate = (nrBlocks - next₁.nrDigestedBlocks) * gBlockSizeBytes ∧
      next₁.data / gBlockSizeBytes + (nrBlocks - next₁.nrDigestedBlocks) = stop := by
  obtain ⟨same,paired,owned,low⟩ := related
  obtain ⟨even,map,mid₁,end₁,got,checked,inside,last,rfl⟩ := digestRun_iff.mp done
  have positive : 0 < map.ret := by omega
  have most : map.ret ≤ nrBlocks - at₁.nrDigestedBlocks := by omega
  have final := digestLast_whole left most positive last
  subst final
  obtain ⟨mid₂,got₂,paired'⟩ := paired.getBlocks got
  have owned' := owned.create got
  obtain ⟨start,logs⟩ := getBlocks_logs got
  obtain ⟨_,mine,grown⟩ := getBlocks_fileBlocks got
  have log : ∀ i < map.ret, mid₁.InLogs (at₁.data / gBlockSizeBytes + i) := fun i bound =>
    pass_logs (by rw [start]; exact low) (by rw [start,logs]; exact high) inside i (by omega)
  have data : ∀ i < map.ret, map.mPblk + i ∈ mid₁.dataBlocks := fun i bound => fileBlocks_data (mine i bound)
  have swapped := paired'.swaps owned' data log
  have ownedE := (owned'.view_swaps data log).1
  have first : mid₁.logStart ≤ at₁.data / gBlockSizeBytes + 0 := (log 0 positive).1
  have place : (at₁.data + map.ret * gBlockSizeBytes) / gBlockSizeBytes = at₁.data / gBlockSizeBytes + map.ret :=
    Nat.add_mul_div_right _ _ (by decide)
  refine ⟨⟨{mid₂ with map := updateMapTables mid₂.map map.mPblk (at₁.data / gBlockSizeBytes) map.ret},_,_,_,_⟩,
    digestRun_iff.mpr ?_,⟨rfl,swapped.mono ?_,ownedE,?_⟩,?_,start,logs,?_,?_⟩
  · rw [same]
    refine ⟨even,map,mid₂,_,got₂,checked,inside,?_,rfl⟩
    have enough : ¬ at₁.length2allocate < map.ret * gBlockSizeBytes := by
      rw [left,not_lt]
      exact Nat.mul_le_mul_right _ most
    have count : map.ret = map.ret - 1 + 1 := by omega
    unfold KernFs.digestLast
    rw [if_neg enough]
    conv_rhs => rw [count,updateMapTables]
  · -- A block of the pass comes from a log block that was ahead, an earlier one stays.
    rintro b (member | ⟨from_,until_⟩)
    · have member' : b ∈ mid₁.fileBlocks f := member
      have below := owned'.below (Or.inl (fileBlocks_data member'))
      refine ⟨by omega,?_⟩
      by_cases range : map.mPblk ≤ b ∧ b < map.mPblk + map.ret
      · rw [exchange,if_pos range]
        exact Or.inr ⟨by omega,by omega⟩
      · rw [exchange_other range (by omega)]
        refine Or.inl ?_
        rcases grown with unchanged | ⟨_,_,sum⟩
        · rwa [unchanged] at member'
        · rw [sum,Multiset.mem_add,mem_span] at member'
          exact member'.resolve_right range
    · simp only [place] at from_
      refine ⟨by rw [start,logs]; omega,?_⟩
      rw [exchange_other ?_ (by omega)]
      · exact Or.inr ⟨by omega,until_⟩
      · intro range
        have taken := data (b - map.mPblk) (by omega)
        rw [Nat.add_sub_cancel' range.1] at taken
        have under := owned'.below (Or.inl taken)
        omega
  · simp only [start]
    omega
  · simp only
    rw [Nat.add_mul_mod_self_right]
    exact aligned
  · simp only [left]
    rw [←Nat.sub_mul,Nat.sub_sub]
  · simp only [place]
    omega

end InStep

section Entries
variable {f : Nat} {S : Nat → Prop} {fs₁ fs₂ fs₁' : KernFs}

theorem Paired.inodes (paired : Paired S fs₁ fs₂) : fs₂.inodes = fs₁.inodes := by
  rw [paired.control]
  rfl

theorem Paired.logEnd (paired : Paired S fs₁ fs₂) (libfsId : Nat) : fs₂.logEnd libfsId = fs₁.logEnd libfsId := by
  rw [paired.control]
  rfl

variable {length blknr offset libfsId stop : Nat} {inode' : Inode}

theorem Paired.openFile {at₁ : Digesting} (paired : Paired S fs₁ fs₂)
    (owned : Owned fs₁) (done : fs₁.openFile inum offset length blknr = some at₁) :
    ∃ at₂, fs₂.openFile inum offset length blknr = some at₂ ∧ at₂ = {at₁ with fs := at₂.fs} ∧
      Paired S at₁.fs at₂.fs ∧ Owned at₁.fs ∧ (∀ j, at₁.fs.fileBlocks j = fs₁.fileBlocks j) ∧
      at₁.fs.view = fs₁.view ∧ at₂.fs.view = fs₂.view := by
  obtain ⟨inode,found,typed,rfl⟩ := openFile_parts done
  have found₂ : fs₂.inodes[inum]? = some inode := by
    rw [paired.inodes]
    exact found
  refine ⟨⟨{fs₂ with inodes := fs₂.inodes.set inum {inode with size := max inode.size (offset + length)}},offset,
    blknr * gBlockSizeBytes,length,0⟩,?_,rfl,?_,owned.setInode found (Or.inl rfl),fun j => ?_,rfl,rfl⟩
  · simp only [KernFs.openFile,found₂,bind_eq_bind,bind_some,if_neg typed]
  · have same := paired.setInodes (fs₁.inodes.set inum {inode with size := max inode.size (offset + length)})
    rw [paired.inodes]
    exact same
  · by_cases own : j = inum
    · subst own
      rw [fileBlocks_eq found]
      exact fileBlocks_own found
    · exact fileBlocks_set own

theorem digestFile_other (other : f ≠ inum)
    (paired : Paired (· ∈ fs₁.fileBlocks f) fs₁ fs₂) (owned : Owned fs₁) (own : fs₁.OwnLog libfsId blknr)
    (done : digestFile fs₁ libfsId inum offset length blknr = some fs₁') :
    ∃ fs₂', digestFile fs₂ libfsId inum offset length blknr = some fs₂' ∧ Paired (· ∈ fs₁'.fileBlocks f) fs₁' fs₂' := by
  obtain ⟨at₁,head₁,end₁,opened,first,rest,rfl⟩ := digestFile_parts done
  obtain ⟨at₂,opened₂,same,paired₀,owned₀,blocks,_,_⟩ := paired.openFile owned opened
  have log := own.inLogs
  have ends := own.ends
  obtain ⟨_,low,high⟩ := own
  have before : fs₁.logStart * gBlockSizeBytes ≤ blknr * gBlockSizeBytes := Nat.mul_le_mul_right _ log.1
  obtain ⟨_,_,_,shape⟩ := openFile_parts opened
  obtain ⟨start₀,logs₀,data₀⟩ : at₁.fs.logStart = fs₁.logStart ∧ at₁.fs.logs = fs₁.logs ∧
      at₁.data = blknr * gBlockSizeBytes := by
    rw [shape]
    exact ⟨rfl,rfl,rfl⟩
  have related : InStep f (fun _ => False) at₁ at₂ := by
    refine ⟨same,paired₀.mono ?_,owned₀,by rw [start₀,data₀]; exact before⟩
    rintro b (member | none)
    · rwa [blocks f] at member
    · exact none.elim
  obtain ⟨head₂,first₂,related₁,start₁,logs₁⟩ : ∃ head₂, digestFirst inum offset length at₂ = some head₂ ∧
      InStep f (fun _ => False) head₁ head₂ ∧ head₁.fs.logStart = at₁.fs.logStart ∧ head₁.fs.logs = at₁.fs.logs := by
    unfold digestFirst at first ⊢
    split at first
    · rename_i inner
      obtain ⟨head₂,copied,related₁,logs₁⟩ := digestHead_other other related (by
        rw [data₀,Nat.mul_div_cancel _ (by decide)]
        exact log.transfer ⟨start₀,logs₀⟩) first
      exact ⟨head₂,by rw [if_pos inner]; exact copied,related₁,logs₁⟩
    · rename_i whole
      cases first
      exact ⟨at₂,if_neg whole,related,rfl,rfl⟩
  obtain ⟨end₂,rest₂,final,_⟩ := loop_related
    (fun s t => InStep f (fun _ => False) s t ∧ s.fs.logStart = fs₁.logStart ∧ s.fs.logs = fs₁.logs)
    (fun s t known => by
      rw [known.1.same]
      rfl)
    (fun s t s' known _ stepped => by
      obtain ⟨inStep,start,logs⟩ := known
      obtain ⟨t',stepped',inStep',start',logs'⟩ := digestRun_other other inStep (by rw [start,logs]; exact ends) stepped
      exact ⟨t',stepped',inStep',start'.trans start,logs'.trans logs⟩)
    ⟨related₁,start₁.trans start₀,logs₁.trans logs₀⟩ rest
  refine ⟨end₂.fs,?_,final.paired.mono fun b member => Or.inl member⟩
  have rest₂' : digestRuns inum (nrBlocksOf length) (fs₁.logEnd libfsId) head₂ = some end₂ := rest₂
  simp only [digestFile,opened₂,first₂,bind_eq_bind,bind_some,paired.logEnd libfsId,rest₂']

theorem digestFile_own_whole (paired : Paired (· ∈ fs₁.fileBlocks f) fs₁ fs₂)
    (owned : Owned fs₁) (own : fs₁.OwnLog libfsId blknr) (some_ : 0 < length) (aligned : offset % gBlockSizeBytes = 0)
    (whole : length % gBlockSizeBytes = 0) (room : blknr + length / gBlockSizeBytes ≤ fs₁.logEnd libfsId)
    (agree : ∀ b, blknr ≤ b → b < blknr + length / gBlockSizeBytes → ∀ o < gBlockSizeBytes, fs₁.view b o = fs₂.view b o)
    (done : digestFile fs₁ libfsId f offset length blknr = some fs₁') :
    ∃ fs₂', digestFile fs₂ libfsId f offset length blknr = some fs₂' ∧ Paired (· ∈ fs₁'.fileBlocks f) fs₁' fs₂' := by
  have large : ¬ (length < gBlockSizeBytes ∨ offset % gBlockSizeBytes ≠ 0) := by
    simp only [gBlockSizeBytes] at *
    omega
  have count := (whole_blocks own.2.1 some_ aligned whole room).2.1
  obtain ⟨at₁,head₁,end₁,opened,first,rest,rfl⟩ := digestFile_parts done
  obtain ⟨at₂,opened₂,same,paired₀,owned₀,blocks,view₁,view₂⟩ := paired.openFile owned opened
  have log := own.inLogs
  have ends := own.ends
  obtain ⟨_,low,high⟩ := own
  obtain ⟨_,_,_,shape⟩ := openFile_parts opened
  obtain ⟨start₀,logs₀,data₀,left₀,none₀⟩ : at₁.fs.logStart = fs₁.logStart ∧ at₁.fs.logs = fs₁.logs ∧
      at₁.data = blknr * gBlockSizeBytes ∧ at₁.length2allocate = length ∧ at₁.nrDigestedBlocks = 0 := by
    rw [shape]
    exact ⟨rfl,rfl,rfl,rfl,rfl⟩
  have place : at₁.data / gBlockSizeBytes = blknr := by
    rw [data₀]
    exact Nat.mul_div_cancel _ (by decide)
  have related : InStep f (fun b => at₁.data / gBlockSizeBytes ≤ b ∧ b < blknr + length / gBlockSizeBytes) at₁ at₂ := by
    refine ⟨same,⟨paired₀.control,?_⟩,owned₀,?_⟩
    · rintro b (member | ⟨from_,until_⟩) o small
      · rw [blocks f] at member
        exact paired₀.agree b member o small
      · rw [view₁,view₂]
        exact agree b (by omega) until_ o small
    · rw [start₀,data₀]
      exact Nat.mul_le_mul_right _ log.1
  unfold digestFirst at first
  rw [if_neg large] at first
  cases first
  obtain ⟨end₂,rest₂,⟨final,_⟩⟩ := loop_related
    (fun s t => InStep f (fun b => s.data / gBlockSizeBytes ≤ b ∧ b < blknr + length / gBlockSizeBytes) s t ∧
      s.data % gBlockSizeBytes = 0 ∧ s.fs.logStart = fs₁.logStart ∧ s.fs.logs = fs₁.logs ∧
      s.length2allocate = (nrBlocksOf length - s.nrDigestedBlocks) * gBlockSizeBytes ∧
      s.data / gBlockSizeBytes + (nrBlocksOf length - s.nrDigestedBlocks) = blknr + length / gBlockSizeBytes)
    (fun s t known => by
      rw [known.1.same]
      rfl)
    (fun s t s' known _ stepped => by
      obtain ⟨inStep,even,start,logs,left,ahead⟩ := known
      obtain ⟨t',stepped',inStep',even',start',logs',left',ahead'⟩ := digestRun_own inStep even
        (by rw [start,logs]; exact ends) left ahead (by rw [start,logs]; omega) stepped
      exact ⟨t',stepped',inStep',even',start'.trans start,logs'.trans logs,left',ahead'⟩)
    ⟨related,by rw [data₀]; exact Nat.mul_mod_left _ _,start₀,logs₀,by
      rw [left₀,none₀,count,Nat.sub_zero]
      exact (Nat.div_mul_cancel (Nat.dvd_of_mod_eq_zero whole)).symm,by rw [place,none₀,count,Nat.sub_zero]⟩ rest
  refine ⟨end₂.fs,?_,final.paired.mono fun b member => Or.inl member⟩
  have rest₂' : digestRuns f (nrBlocksOf length) (fs₁.logEnd libfsId) at₂ = some end₂ := rest₂
  simp only [digestFile,opened₂,digestFirst,if_neg large,bind_eq_bind,bind_some,paired.logEnd libfsId,
    rest₂']

theorem getBlocks_mapped {inum x : Nat} (read : fs.readByte inum x ≠ none)
    (done : fs.getBlocks inum (x / gBlockSizeBytes) mLen = some (map,fs')) : fs' = fs := by
  obtain ⟨inode,root,sb,found,got,rfl⟩ := getBlocks_parts done
  obtain ⟨v,read⟩ := ne_none_iff_exists'.mp read
  obtain ⟨inode',r,root',sb',found',lookup,hit,_⟩ := readByte_parts read
  cases found.symm.trans found'
  obtain ⟨rfl,rfl⟩ := getBlocks_found lookup hit got
  obtain ⟨inside,rfl⟩ := List.getElem?_eq_some_iff.mp found
  rw [List.set_getElem_self]

theorem digestFile_own_part (paired : Paired (· ∈ fs₁.fileBlocks f) fs₁ fs₂)
    (owned : Owned fs₁) (own : fs₁.OwnLog libfsId blknr) (small : length < gBlockSizeBytes)
    (fits : offset % gBlockSizeBytes + length ≤ gBlockSizeBytes)
    (agree : ∀ o, offset % gBlockSizeBytes ≤ o → o < offset % gBlockSizeBytes + length →
      fs₁.view blknr o = fs₂.view blknr o)
    (clean : fs₁.readByte f offset = none → ∀ b ∈ fs₁.sb.free, ∀ o < gBlockSizeBytes, fs₁.view b o = fs₂.view b o)
    (done : digestFile fs₁ libfsId f offset length blknr = some fs₁') :
    ∃ fs₂', digestFile fs₂ libfsId f offset length blknr = some fs₂' ∧ Paired (· ∈ fs₁'.fileBlocks f) fs₁' fs₂' := by
  have len : min length (gBlockSizeBytes - offset % gBlockSizeBytes) = length := min_eq_left (by omega)
  have count : nrBlocksOf length = 1 := by rw [nrBlocksOf,if_pos small]
  obtain ⟨at₁,head₁,end₁,opened,first,rest,rfl⟩ := digestFile_parts done
  obtain ⟨at₂,opened₂,same,paired₀,owned₀,blocks,view₁,view₂⟩ := paired.openFile owned opened
  obtain ⟨inode,found,_,shape⟩ := openFile_parts opened
  have log : at₁.fs.InLogs blknr := by
    rw [shape]
    exact own.inLogs
  have place : at₁.data / gBlockSizeBytes = blknr := by
    rw [shape]
    exact Nat.mul_div_cancel _ (by decide)
  have cur : at₁.curOffset = offset := by rw [shape]
  have unread : at₁.fs.readByte f offset = fs₁.readByte f offset := by
    have inside : f < fs₁.inodes.length := (List.getElem?_eq_some_iff.mp found).1
    rw [shape]
    simp only [KernFs.readByte,List.getElem?_set_self inside,found,bind_eq_bind,bind_some]
  have free : at₁.fs.sb = fs₁.sb := by rw [shape]
  unfold digestFirst at first
  rw [if_pos (Or.inl small)] at first
  obtain ⟨map,mid₁,mid₁',got,one,copied,rfl⟩ := digestHead_iff.mp first
  rw [cur] at got
  rw [len,place] at copied
  obtain ⟨mid₂,got₂,paired₁⟩ := paired₀.getBlocks got
  have owned₁ := owned₀.create got
  have views : mid₁.view = fs₁.view ∧ mid₂.view = fs₂.view := by
    rw [←view₁,←view₂]
    obtain ⟨_,_,_,_,_,rfl⟩ := getBlocks_parts got
    obtain ⟨_,_,_,_,_,rfl⟩ := getBlocks_parts got₂
    exact ⟨rfl,rfl⟩
  obtain ⟨_,mine,grown⟩ := getBlocks_fileBlocks got
  have block := mine 0 (by omega)
  -- All blocks of the file agree: an old one did, a new one was free.
  have known : ∀ b ∈ mid₁.fileBlocks f, ∀ o < gBlockSizeBytes, mid₁.view b o = mid₂.view b o := by
    intro b member o bound
    rw [views.1,views.2]
    rcases grown with unchanged | ⟨sb₁,created,sum⟩
    · rw [unchanged,blocks f] at member
      exact paired.agree b member o bound
    · rw [sum,Multiset.mem_add,blocks f] at member
      rcases member with old | new
      · exact paired.agree b old o bound
      · have missed : fs₁.readByte f offset = none := by
          by_contra read
          rw [←unread] at read
          have none := getBlocks_mapped read got
          rw [none] at sum
          have card := congrArg Multiset.card sum
          rw [Multiset.card_add,card_span,one] at card
          omega
        refine clean missed b ?_ o bound
        obtain ⟨lost,balanced⟩ := owned₀.balanced
        rw [←free,(created_balanced balanced created).1.free]
        exact Multiset.mem_add.mpr (Or.inr new)
  have paired₂ : Paired (· ∈ mid₁.fileBlocks f) mid₁ mid₂ := ⟨paired₁.control,known⟩
  have log' : mid₁.InLogs blknr := log.transfer (getBlocks_logs got)
  obtain ⟨mid₂',copied₂,pair⟩ := paired₂.copy owned₁ (fileBlocks_data block) log' copied
  obtain ⟨_,inodes,_⟩ := owned₁.view_copy (fileBlocks_data block) log' copied
  have ended : end₁.fs = mid₁' := by
    rw [digestRuns,count] at rest
    unfold loop at rest
    rw [if_pos (by simp [digestFinished])] at rest
    cases rest
    rfl
  refine ⟨mid₂',?_,?_⟩
  · have head₂ : digestHead f offset length at₂ = some ⟨mid₂',at₂.curOffset + length,at₂.data + length,
        at₂.length2allocate - length,at₂.nrDigestedBlocks + 1⟩ := by
      refine digestHead_iff.mpr ⟨map,mid₂,mid₂',?_,one,?_,by rw [len]⟩
      · rw [same,cur]
        exact got₂
      · rw [len,same,place]
        exact copied₂
    simp only [digestFile,opened₂,digestFirst,if_pos (Or.inl small),head₂,bind_eq_bind,bind_some,
      digestRuns,count,loop]
    rw [if_pos (by simp [digestFinished])]
    rfl
  · rw [ended]
    refine pair.mono fun b member => ?_
    have member' : b ∈ mid₁.fileBlocks f := by
      unfold KernFs.fileBlocks at member ⊢
      rwa [inodes] at member
    have below := owned₁.below (Or.inl (fileBlocks_data member'))
    refine ⟨by omega,member',fun _ o low high => ?_⟩
    rw [views.1,views.2]
    exact agree o low high

theorem truncate_fileBlocks {inum start : Nat} (owned : Owned fs)
    (done : fs.truncate inum start stop = some fs') : ∀ j, ∀ b ∈ fs'.fileBlocks j, b ∈ fs.fileBlocks j := by
  obtain ⟨lost,balanced⟩ := owned.balanced
  obtain ⟨middle,start,cut,returned⟩ := truncate_moves balanced done
  obtain ⟨constant,_⟩ := cut.grow_keeps (P:=fun _ => True) start (fun _ _ => trivial) (fun _ _ => trivial)
  obtain ⟨fewer,_⟩ := returned.shrink_keeps (P:=fun _ => True) (cut.balanced start) (fun _ _ => trivial)
  obtain ⟨inode,root,sb,found,got,rfl⟩ := truncate_parts done
  intro j b member
  by_cases own : j = inum
  · subst own
    obtain ⟨data,_,dataSum,_,after⟩ := set_blocks found
    rw [constant] at fewer
    simp only [(after {inode with root := root} sb).1,dataSum] at fewer
    rw [fileBlocks_own found] at member
    rw [fileBlocks_eq found]
    exact Multiset.mem_of_le (le_of_add_le_add_left (le_of_add_le_add_left fewer)) member
  · rwa [fileBlocks_set own] at member

theorem setInode_fileBlocks (found : fs.inodes[inum]? = some inode)
    (root : inode'.root = inode.root ∨ inode'.root = emptyRoot) :
    ∀ j, ∀ b ∈ ({fs with inodes := fs.inodes.set inum inode'} : KernFs).fileBlocks j, b ∈ fs.fileBlocks j := by
  intro j b member
  by_cases own : j = inum
  · subst own
    have now : ({fs with inodes := fs.inodes.set j inode'} : KernFs).fileBlocks j = _ := fileBlocks_own found
    rw [now] at member
    rw [fileBlocks_eq found]
    rcases root with same | empty
    · rwa [same] at member
    · rw [empty] at member
      simp [emptyRoot] at member
  · have now : ({fs with inodes := fs.inodes.set inum inode'} : KernFs).fileBlocks j = _ := fileBlocks_set own
    rwa [now] at member

section
variable (paired : Paired S fs₁ fs₂)
include paired

theorem Paired.getInode (found : fs₁.inodes[inum]? = some inode) :
    fs₂.inodes[inum]? = some inode := by
  rw [paired.inodes]
  exact found

theorem Paired.setInode (inum : Nat) (inode : Inode) :
    Paired S {fs₁ with inodes := fs₁.inodes.set inum inode} {fs₂ with inodes := fs₂.inodes.set inum inode} := by
  have same := paired.setInodes (fs₁.inodes.set inum inode)
  rw [paired.inodes]
  exact same

theorem digestInode_paired {inum size : Nat} {itype : Option FileType} (owned : Owned fs₁)
    (done : digestInode fs₁ inum itype size = some fs₁') :
    ∃ fs₂', digestInode fs₂ inum itype size = some fs₂' ∧ Paired S fs₁' fs₂' ∧
      ∀ j, ∀ b ∈ fs₁'.fileBlocks j, b ∈ fs₁.fileBlocks j := by
  obtain ⟨inode,found,done⟩ := bind_eq_some_iff.mp done
  obtain ⟨cut₁,shortened,done⟩ := bind_eq_some_iff.mp done
  obtain ⟨inode',found',done⟩ := bind_eq_some_iff.mp done
  cases done
  have roots : (inode.occupy itype).root = inode.root ∨ (inode.occupy itype).root = emptyRoot := by
    unfold Inode.occupy
    split
    · exact Or.inr rfl
    · exact Or.inl rfl
  have fewer₀ := setInode_fileBlocks found roots
  have owned₀ := owned.setInode found roots
  have paired₀ := paired.setInode inum (inode.occupy itype)
  obtain ⟨cut₂,shortened₂,paired₁,fewer₁⟩ : ∃ cut₂,
      ({fs₂ with inodes := fs₂.inodes.set inum (inode.occupy itype)} : KernFs).shorten inum size (inode.occupy itype) =
        some cut₂ ∧ Paired S cut₁ cut₂ ∧
      ∀ j, ∀ b ∈ cut₁.fileBlocks j,
        b ∈ ({fs₁ with inodes := fs₁.inodes.set inum (inode.occupy itype)} : KernFs).fileBlocks j := by
    unfold KernFs.shorten at shortened ⊢
    split at shortened
    · rename_i shorter
      obtain ⟨cut₂,truncated,pair⟩ := paired₀.truncate shortened
      exact ⟨cut₂,by rw [if_pos shorter]; exact truncated,pair,truncate_fileBlocks owned₀ shortened⟩
    · rename_i longer
      cases shortened
      exact ⟨_,if_neg longer,paired₀,fun _ _ member => member⟩
  refine ⟨{cut₂ with inodes := cut₂.inodes.set inum {inode' with size := size}},?_,paired₁.setInode inum _,
    fun j b member => ?_⟩
  · simp only [digestInode,paired.getInode found,bind_eq_bind,bind_some,shortened₂,paired₁.getInode found']
  · refine fewer₀ j b (fewer₁ j b (setInode_fileBlocks found' ?_ j b member))
    exact Or.inl rfl

theorem digestUnlink_paired (owned : Owned fs₁)
    (done : digestUnlink fs₁ inum = some fs₁') :
    ∃ fs₂', digestUnlink fs₂ inum = some fs₂' ∧ Paired S fs₁' fs₂' ∧
      ∀ j, ∀ b ∈ fs₁'.fileBlocks j, b ∈ fs₁.fileBlocks j := by
  obtain ⟨inode,found,done⟩ := bind_eq_some_iff.mp done
  obtain ⟨cut₁,released,done⟩ := bind_eq_some_iff.mp done
  cases done
  obtain ⟨cut₂,inode',released₂,paired₁,found',fewer⟩ : ∃ cut₂ inode', fs₂.release inum inode = some cut₂ ∧
      Paired S cut₁ cut₂ ∧ cut₁.inodes[inum]? = some inode' ∧ ∀ j, ∀ b ∈ cut₁.fileBlocks j, b ∈ fs₁.fileBlocks j := by
    unfold KernFs.release at released ⊢
    simp only at released ⊢
    split at released
    · rename_i some_
      obtain ⟨cut₂,truncated,pair⟩ := paired.truncate released
      have fewer := truncate_fileBlocks owned released
      obtain ⟨old,root,sb,here,_,rfl⟩ := truncate_parts released
      have inside : inum < fs₁.inodes.length := (List.getElem?_eq_some_iff.mp here).1
      exact ⟨cut₂,{old with root := root},by rw [if_pos some_]; exact truncated,pair,by simp [inside],fewer⟩
    · rename_i empty
      cases released
      exact ⟨fs₂,inode,if_neg empty,paired,found,fun _ _ member => member⟩
  refine ⟨{cut₂ with inodes := cut₂.inodes.set inum ⟨none,0,emptyRoot⟩},?_,paired₁.setInode inum _,fun j b member => ?_⟩
  · simp only [digestUnlink,paired.getInode found,bind_eq_bind,bind_some,released₂]
  · exact fewer j b (setInode_fileBlocks found' (Or.inr rfl) j b member)

end

theorem digestAllocate_paired
    (paired : Paired (fun b => b ∈ fs₁.fileBlocks f ∨ inum = f ∧ (b ∈ fs₁.treeBlocks ∨ b ∈ fs₁.sb.free)) fs₁ fs₂)
    (owned : Owned fs₁) (done : digestAllocate fs₁ inum length = some fs₁') :
    ∃ fs₂', digestAllocate fs₂ inum length = some fs₂' ∧ Paired (· ∈ fs₁'.fileBlocks f) fs₁' fs₂' := by
  obtain ⟨inode,found,done⟩ := bind_eq_some_iff.mp done
  split at done
  · cases done
  · rename_i grows
    obtain ⟨end₁,looped,done⟩ := bind_eq_some_iff.mp done
    cases done
    obtain ⟨end₂,looped₂,final⟩ := loop_related
      (fun s t : Allocating => t = {s with fs := t.fs} ∧ Owned s.fs ∧
        Paired (fun b => b ∈ s.fs.fileBlocks f ∨ inum = f ∧ (b ∈ s.fs.treeBlocks ∨ b ∈ s.fs.sb.free)) s.fs t.fs)
      (fun s t known => by
        rw [known.1]
        rfl)
      (fun s t s' known _ stepped => by
        obtain ⟨same,own,pair⟩ := known
        obtain ⟨map,mid₁,got,some_,joined,rfl⟩ := allocateRun_iff.mp stepped
        obtain ⟨mid₂,got₂,pair'⟩ := pair.getBlocks got
        obtain ⟨others,_,grown⟩ := getBlocks_fileBlocks got
        obtain ⟨tree,free,new⟩ := own.create_keeps (P:=fun b => b ∈ s.fs.treeBlocks ∨ b ∈ s.fs.sb.free) got
          (fun _ member => Or.inl member) (fun _ member => Or.inr member)
        refine ⟨⟨mid₂,_,_⟩,allocateRun_iff.mpr ⟨map,mid₂,?_,some_,?_,rfl⟩,?_,own.create got,pair'.mono ?_⟩
        · rw [same]
          exact got₂
        · rw [same]
          exact joined
        · rw [same]
        · rintro b (member | ⟨mine,used⟩)
          · by_cases mine : inum = f
            · subst mine
              rcases grown with unchanged | ⟨_,_,sum⟩
              · rw [unchanged] at member
                exact Or.inl member
              · rw [sum,Multiset.mem_add] at member
                rcases member with old | taken
                · exact Or.inl old
                · rcases new with unchanged | fresh
                  · rw [unchanged] at sum
                    have none := left_eq_add.mp sum
                    rw [none] at taken
                    cases taken
                  · exact Or.inr ⟨rfl,Or.inr (fresh b taken)⟩
            · rw [others f (Ne.symm mine)] at member
              exact Or.inl member
          · exact Or.inr ⟨mine,used.elim (tree b) (free b)⟩)
      (t:=⟨fs₂,0,0⟩) ⟨rfl,owned,paired⟩ looped
    refine ⟨end₂.fs,?_,final.2.2.mono fun b member => Or.inl member⟩
    simp only [digestAllocate,paired.getInode found,bind_eq_bind,bind_some,if_neg grows,looped₂]

end Entries

def SameEntry (f : Nat) (fs₁ fs₂ : KernFs) : LogEntry → Prop
  | .file i offset length blknr => i = f → ∀ x, offset ≤ x → x < offset + length →
      fs₁.dataByte offset blknr x = fs₂.dataByte offset blknr x
  | .inode .. | .unlink _ | .alloc .. => True

def SameAction (f : Nat) (fs₁ fs₂ : KernFs) : Action → Action → Prop
  | .write libfsId blk offset size _,.write libfsId' blk' offset' size' _ =>
    libfsId' = libfsId ∧ blk' = blk ∧ offset' = offset ∧ size' = size
  | .digest libfsId entry,.digest libfsId' entry' => libfsId' = libfsId ∧ entry' = entry ∧ SameEntry f fs₁ fs₂ entry
  | .flush rest referenced,.flush rest' referenced' => rest' = rest ∧ referenced' = referenced
  | _,_ => False

def OwnShape (f : Nat) (fs : KernFs) : Action → Prop
  | .digest libfsId (.file i offset length blknr) => i = f → DataShape fs libfsId offset length blknr
  | .digest _ (.inode ..) | .digest _ (.unlink _) | .digest _ (.alloc ..) | .write .. | .flush .. => True

-- Free blocks hold the same bytes when one is mapped for a part of a block of `f`, and so do nodes
-- when blocks are mapped for `f` without data.
def NoStale (f : Nat) (fs₁ fs₂ : KernFs) : Action → Prop
  | .digest _ (.file i offset length _) => i = f → length < gBlockSizeBytes → fs₁.readByte f offset = none →
      ∀ b ∈ fs₁.sb.free, ∀ o < gBlockSizeBytes, fs₁.view b o = fs₂.view b o
  | .digest _ (.alloc i _) => i = f → ∀ b, b ∈ fs₁.treeBlocks ∨ b ∈ fs₁.sb.free →
      ∀ o < gBlockSizeBytes, fs₁.view b o = fs₂.view b o
  | .digest _ (.inode ..) | .digest _ (.unlink _) | .write .. | .flush .. => True

def Twins (f : Nat) (fs₁ fs₂ : KernFs) : Prop := Owned fs₁ ∧ Paired (· ∈ fs₁.fileBlocks f) fs₁ fs₂

theorem Twins.refl {f : Nat} (owned : Owned fs) : Twins f fs fs := ⟨owned,rfl,fun _ _ _ _ => rfl⟩

theorem digestEntry_twins {f : Nat} {entry : LogEntry} (twins : Twins f fs₁ fs₂)
    (from_ : entry.FromLog fs₁ libfsId) (same : SameEntry f fs₁ fs₂ entry)
    (shape : OwnShape f fs₁ (.digest libfsId entry)) (clean : NoStale f fs₁ fs₂ (.digest libfsId entry))
    (done : digestEntry fs₁ libfsId entry = some fs₁') :
    ∃ fs₂', digestEntry fs₂ libfsId entry = some fs₂' ∧ Paired (· ∈ fs₁'.fileBlocks f) fs₁' fs₂' := by
  obtain ⟨owned,paired⟩ := twins
  cases entry with
  | inode inum itype size =>
    obtain ⟨fs₂',done₂,pair,fewer⟩ := digestInode_paired paired owned done
    exact ⟨fs₂',done₂,pair.mono fun b member => fewer f b member⟩
  | unlink inum =>
    obtain ⟨fs₂',done₂,pair,fewer⟩ := digestUnlink_paired paired owned done
    exact ⟨fs₂',done₂,pair.mono fun b member => fewer f b member⟩
  | alloc inum length =>
    have wider : Paired (fun b => b ∈ fs₁.fileBlocks f ∨ inum = f ∧ (b ∈ fs₁.treeBlocks ∨ b ∈ fs₁.sb.free))
        fs₁ fs₂ := by
      refine ⟨paired.control,?_⟩
      rintro b (member | ⟨mine,used⟩) o small
      · exact paired.agree b member o small
      · exact clean mine b used o small
    exact digestAllocate_paired wider owned done
  | file inum offset length blknr =>
    by_cases own : inum = f
    · subst own
      obtain ⟨some_,⟨small,fits⟩ | ⟨aligned,whole,room⟩⟩ := shape rfl
      · refine digestFile_own_part paired owned from_ small fits (fun o low high => ?_) (clean rfl small) done
        have byte := same rfl (offset / gBlockSizeBytes * gBlockSizeBytes + o)
          (by simp only [gBlockSizeBytes] at *; omega) (by simp only [gBlockSizeBytes] at *; omega)
        have place : (offset / gBlockSizeBytes * gBlockSizeBytes + o) / gBlockSizeBytes = offset / gBlockSizeBytes := by
          simp only [gBlockSizeBytes] at *
          omega
        have rest : (offset / gBlockSizeBytes * gBlockSizeBytes + o) % gBlockSizeBytes = o := by
          simp only [gBlockSizeBytes] at *
          omega
        rw [KernFs.dataByte,KernFs.dataByte,place,rest,Nat.sub_self,add_zero] at byte
        exact byte
      · refine digestFile_own_whole paired owned from_ some_ aligned whole room (fun b low high o small => ?_) done
        have byte := same rfl (offset + (b - blknr) * gBlockSizeBytes + o)
          (by omega) (by simp only [gBlockSizeBytes] at *; omega)
        have place : (offset + (b - blknr) * gBlockSizeBytes + o) / gBlockSizeBytes =
            offset / gBlockSizeBytes + (b - blknr) := by
          simp only [gBlockSizeBytes] at *
          omega
        have rest : (offset + (b - blknr) * gBlockSizeBytes + o) % gBlockSizeBytes = o := by
          simp only [gBlockSizeBytes] at *
          omega
        rw [KernFs.dataByte,KernFs.dataByte,place,rest,Nat.add_sub_cancel_left,Nat.add_sub_cancel' low] at byte
        exact byte
    · exact digestFile_other (Ne.symm own) paired owned from_ done

theorem view_flushed (fs : KernFs) (rest : Disk) (referenced : List Nat) (b o : Nat) :
    (syncAllBuffers fs rest referenced).view b o =
      if fs.home b ∈ fs.sb.bdBhDirty ∧ o < gBlockSizeBytes then bufferByte rest (fs.home b) o else fs.view b o := rfl

theorem Paired.readByte {f : Nat} (paired : Paired (· ∈ fs₁.fileBlocks f) fs₁ fs₂) (x : Nat) :
    fs₂.readByte f x = fs₁.readByte f x := by
  have sb : fs₂.sb = fs₁.sb := by
    rw [paired.control]
    rfl
  have map : fs₂.map = fs₁.map := by
    rw [paired.control]
    rfl
  unfold KernFs.readByte
  rw [paired.inodes,sb,map]
  cases found : fs₁.inodes[f]? with
  | none => rfl
  | some inode =>
    simp only [bind_eq_bind,bind_some]
    cases lookup : mlfsExtGetBlocks inode.root fs₁.sb (x / gBlockSizeBytes % 2 ^ 32) 1 false with
    | none => rfl
    | some reply =>
      obtain ⟨result,root,sb'⟩ := reply
      simp only [bind_some]
      split
      · rfl
      · rename_i hit
        have owned := getBlocks_owned lookup 0 (Nat.pos_of_ne_zero hit)
        obtain ⟨rfl,_⟩ := getBlocks_found lookup hit lookup
        have member : result.mPblk ∈ fs₁.fileBlocks f := by
          rw [fileBlocks_eq found]
          exact owned
        have bytes := paired.agree _ member (x % gBlockSizeBytes) (Nat.mod_lt _ (by decide))
        unfold KernFs.view KernFs.home at bytes
        rw [map] at bytes
        rw [lblk2pblk_home]
        exact congrArg some bytes.symm

theorem step_twins {f : Nat} {action₁ action₂ : Action} (twins : Twins f fs₁ fs₂)
    (same : SameAction f fs₁ fs₂ action₁ action₂) (shape : OwnShape f fs₁ action₁) (clean : NoStale f fs₁ fs₂ action₁)
    (done : step fs₁ action₁ = some fs₁') : ∃ fs₂', step fs₂ action₂ = some fs₂' ∧ Twins f fs₁' fs₂' := by
  have owned' := step_owned twins.1 done
  obtain ⟨owned,paired⟩ := twins
  have control := paired.control
  cases action₁ with
  | write libfsId blk offset size bytes =>
    cases action₂ with
    | write libfsId' blk' offset' size' bytes' =>
      obtain ⟨rfl,rfl,rfl,rfl⟩ := same
      obtain ⟨own,rfl⟩ := step_write.mp done
      have own₂ : fs₂.OwnLog libfsId' blk' := by
        rw [control]
        exact own
      refine ⟨_,step_write.mpr ⟨own₂,rfl⟩,owned',⟨?_,fun b member o small => ?_⟩⟩
      · rw [control]
        rfl
      · have data := fileBlocks_data member
        have below := owned.below (Or.inl data)
        have low := own.inLogs.1
        obtain ⟨_,rest₁⟩ := owned.view_write own offset' size' bytes
        obtain ⟨_,rest₂⟩ := (paired.owned owned).view_write own₂ offset' size' bytes'
        have start : fs₂.logStart = fs₁.logStart := by rw [control]; rfl
        rw [rest₁ b (by omega) (by omega),rest₂ b (by rw [start]; omega) (by omega)]
        exact paired.agree b member o small
    | digest | flush => exact same.elim
  | digest libfsId entry =>
    cases action₂ with
    | digest libfsId' entry' =>
      obtain ⟨rfl,rfl,alike⟩ := same
      obtain ⟨from_,digested⟩ := step_digest.mp done
      obtain ⟨fs₂',digested₂,pair⟩ := digestEntry_twins ⟨owned,paired⟩ from_ alike shape clean digested
      have from₂ : entry'.FromLog fs₂ libfsId' := by
        rw [control]
        cases entry' <;> exact from_
      exact ⟨fs₂',step_digest.mpr ⟨from₂,digested₂⟩,owned',pair⟩
    | write | flush => exact same.elim
  | flush rest referenced =>
    cases action₂ with
    | flush rest' referenced' =>
      obtain ⟨rfl,rfl⟩ := same
      cases done
      refine ⟨_,rfl,owned',⟨?_,fun b member o small => ?_⟩⟩
      · rw [control]
        rfl
      · -- Both write the same buffers to the same places.
        have home : fs₂.home b = fs₁.home b := by
          rw [control]
          rfl
        have dirty : fs₂.sb.bdBhDirty = fs₁.sb.bdBhDirty := by
          rw [control]
          rfl
        rw [view_flushed,view_flushed,home,dirty]
        split
        · rfl
        · exact paired.agree b member o small
    | write | digest => exact same.elim

theorem file_bytes_independent (f : Nat) (fs fs₁ : KernFs) (actions₁ actions₂ : List Action) (start : Owned fs)
    (guarded : GuardedPair step (fun s t a b => SameAction f s t a b ∧ OwnShape f s a ∧ NoStale f s t a) fs fs
      actions₁ actions₂) (reached : run step fs actions₁ = some fs₁) :
    ∃ fs₂, run step fs actions₂ = some fs₂ ∧ fs₂.label f = fs₁.label f ∧
      ∀ x, fs₂.readByte f x = fs₁.readByte f x := by
  obtain ⟨fs₂,reached₂,_,paired⟩ := pair_run step _ (Twins f)
    (fun s t a b s' twins met stepped => step_twins twins met.1 met.2.1 met.2.2 stepped) fs fs fs₁ actions₁ actions₂
    (.refl start) guarded reached
  have control := paired.control
  refine ⟨fs₂,reached₂,?_,fun x => ?_⟩
  · rw [control]
    rfl
  · exact paired.readByte x

theorem sameEntry_file_iff {f i : Nat} :
    SameEntry f fs₁ fs₂ (.file i offset length blknr) ↔ (i = f → ∀ k < length,
      fs₁.dataByte offset blknr (offset + k) = fs₂.dataByte offset blknr (offset + k)) := by
  constructor
  · intro same own k bound
    exact same own (offset + k) (by omega) (by omega)
  · intro same own x low high
    have byte := same own (x - offset) (by omega)
    rwa [Nat.add_sub_cancel' low] at byte

instance (f : Nat) (fs₁ fs₂ : KernFs) : ∀ entry, Decidable (SameEntry f fs₁ fs₂ entry)
  | .file .. => decidable_of_iff' _ sameEntry_file_iff
  | .inode .. | .unlink _ | .alloc .. => isTrue trivial

instance (f : Nat) (fs : KernFs) : ∀ action, Decidable (OwnShape f fs action)
  | .digest _ (.file ..) => inferInstanceAs (Decidable (_ → DataShape ..))
  | .digest _ (.inode ..) | .digest _ (.unlink _) | .digest _ (.alloc ..) | .write .. | .flush .. => isTrue trivial

instance (f : Nat) (fs₁ fs₂ : KernFs) : ∀ action, Decidable (NoStale f fs₁ fs₂ action)
  | .digest _ (.alloc i _) => decidable_of_iff
      (i = f → (∀ b ∈ fs₁.treeBlocks, ∀ o < gBlockSizeBytes, fs₁.view b o = fs₂.view b o) ∧
        ∀ b ∈ fs₁.sb.free, ∀ o < gBlockSizeBytes, fs₁.view b o = fs₂.view b o)
      ⟨fun known own b used => used.elim ((known own).1 b) ((known own).2 b),
        fun known own => ⟨fun b tree => known own b (Or.inl tree),fun b free => known own b (Or.inr free)⟩⟩
  | .digest _ (.file ..) => inferInstanceAs (Decidable (_ → _ → _ → ∀ b ∈ _, ∀ o < gBlockSizeBytes, _))
  | .digest _ (.inode ..) | .digest _ (.unlink _) | .write .. | .flush .. => isTrue trivial

def Action.isFlush : Action → Bool
  | .flush .. => true
  | .write .. | .digest .. => false

-- Histories without a write-back can be compared by running them.
instance (f : Nat) (fs₁ fs₂ : KernFs) : ∀ action₁ action₂ : Action,
    Decidable (action₁.isFlush = false ∧ SameAction f fs₁ fs₂ action₁ action₂)
  | .flush ..,_ => isFalse fun both => by cases both.1
  | .write ..,.write .. => inferInstanceAs (Decidable (_ ∧ _ ∧ _ ∧ _ ∧ _))
  | .digest ..,.digest .. => inferInstanceAs (Decidable (_ ∧ _ ∧ _ ∧ SameEntry ..))
  | .write ..,.digest .. | .write ..,.flush .. | .digest ..,.write .. | .digest ..,.flush .. => isFalse And.right

def separateActions (v : UInt8) : List Action :=
  [.write 0 1001 0 gBlockSizeBytes (fun _ => v),.digest 0 (.file 0 0 gBlockSizeBytes 1001),.digest 0 (.unlink 0),
    .write 0 1003 0 10 (fun _ => 7),.digest 0 (.file 1 0 10 1003)]

theorem file_bytes_independent_separate :
    ∃ fs fs₁ fs₂, step (KernFs.emptyFiles 64 8 1000 1 2) (wholeBlock 1 0 1002) = some fs ∧
      run step fs (separateActions 5) = some fs₁ ∧ run step fs (separateActions 6) = some fs₂ ∧
      ∀ x, fs₂.readByte 1 x = fs₁.readByte 1 x := by
  obtain ⟨fs,started,guarded,fs₁,reached⟩ :
      ∃ fs, step (KernFs.emptyFiles 64 8 1000 1 2) (wholeBlock 1 0 1002) = some fs ∧
        GuardedPair step (fun s t a b => (a.isFlush = false ∧ SameAction 1 s t a b) ∧ OwnShape 1 s a ∧
          NoStale 1 s t a) fs fs (separateActions 5) (separateActions 6) ∧
        ∃ fs₁, run step fs (separateActions 5) = some fs₁ := by decide +kernel
  have owned := step_owned (emptyFiles_formed 2 (by decide) (by decide) (by decide) (by decide)).owned started
  obtain ⟨fs₂,reached₂,_,bytes⟩ := file_bytes_independent 1 fs fs₁ (separateActions 5) (separateActions 6) owned
    (guarded.mono fun _ _ _ _ met => ⟨met.1.2,met.2⟩) reached
  exact ⟨fs,fs₁,fs₂,started,reached,reached₂,bytes⟩

-- File 0 holds 200 bytes `v` and is removed; file 1 then gets 100 bytes at 300.
def reusedActions (v : UInt8) : List Action :=
  [.write 0 616970 0 200 (fun _ => v),.digest 0 (.file 0 0 200 616970),.digest 0 (.unlink 0),
    .write 0 616971 300 100 (fun _ => 1),.digest 0 (.file 1 300 100 616971)]

theorem reused_block_leaks :
    GuardedPair step (fun s t a b => SameAction 1 s t a b ∧ OwnShape 1 s a) (KernFs.emptyFiles 589854 27106 616960 5 2)
      (KernFs.emptyFiles 589854 27106 616960 5 2) (reusedActions 5) (reusedActions 6) ∧
    ∃ fs₁ fs₂, run step (KernFs.emptyFiles 589854 27106 616960 5 2) (reusedActions 5) = some fs₁ ∧
      run step (KernFs.emptyFiles 589854 27106 616960 5 2) (reusedActions 6) = some fs₂ ∧
      fs₁.label 1 = some (some .file,400) ∧ fs₁.readByte 1 50 = some 5 ∧ fs₂.readByte 1 50 = some 6 := by
  have guarded : GuardedPair step (fun s t a b => (a.isFlush = false ∧ SameAction 1 s t a b) ∧ OwnShape 1 s a)
      (KernFs.emptyFiles 589854 27106 616960 5 2) (KernFs.emptyFiles 589854 27106 616960 5 2) (reusedActions 5)
      (reusedActions 6) := by decide +kernel
  exact ⟨guarded.mono fun _ _ _ _ met => ⟨met.1.2,met.2⟩,by decide +kernel⟩

end Assise.Digest
