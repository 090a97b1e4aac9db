import Assise.Digest
import Assise.ExtentsLedger

-- What digesting an entry can do to the device, as a sequence of elementary changes.
namespace Assise.Digest

open Balloc Extents MapTable Lib.Runs Lib.Spans Option
open LogRing (gLogSize)

def KernFs.dataBlocks (fs : KernFs) : Multiset Nat :=
  (fs.inodes.map fun inode => extentBlocks (extents inode.root.node)).sum
def KernFs.treeBlocks (fs : KernFs) : Multiset Nat := (fs.inodes.map fun inode => nodes inode.root.node).sum

def KernFs.home (fs : KernFs) (b : Nat) : Nat := MapTable.home table fs.map b

def KernFs.InLogs (fs : KernFs) (b : Nat) : Prop :=
  fs.logStart ≤ b ∧ b < fs.logStart + fs.logs * gLogSize

instance (fs : KernFs) (b : Nat) : Decidable (fs.InLogs b) := by
  unfold KernFs.InLogs
  infer_instance

abbrev CallCondition := KernFs → Nat → Nat → Nat → Prop

def RunsMeet (P : CallCondition) (inum nrBlocks logEnd : Nat) (at_ : Digesting) : Prop :=
  Throughout (digestFinished nrBlocks) (digestRun inum nrBlocks logEnd)
    (fun at_ => P at_.fs inum (at_.curOffset / gBlockSizeBytes) (nrBlocks - at_.nrDigestedBlocks)) nrBlocks at_

def CallsMeet (P : CallCondition) (fs : KernFs) (libfsId : Nat) : LogEntry → Prop
  | .file inum offset length blknr =>
    match fs.openFile inum offset length blknr with
    | none => True
    | some at_ =>
      (length < gBlockSizeBytes ∨ offset % gBlockSizeBytes ≠ 0 → P at_.fs inum (offset / gBlockSizeBytes) 1) ∧
      match digestFirst inum offset length at_ with
      | none => True
      | some at_ => RunsMeet P inum (nrBlocksOf length) (fs.logEnd libfsId) at_
  | .alloc inum length =>
    Throughout (allocateFinished (allocateLength length)) (allocateRun inum (allocateLength length))
      (fun at_ => P at_.fs inum at_.blkAlloced (min allocSize (allocateLength length - at_.blkAlloced)))
      (allocateLength length) ⟨fs,0,0⟩
  | .inode .. | .unlink _ => True

instance (P : CallCondition) [∀ fs inum mLblk mLen, Decidable (P fs inum mLblk mLen)] (fs : KernFs) (libfsId : Nat) :
    ∀ entry, Decidable (CallsMeet P fs libfsId entry)
  | .file inum offset length blknr => by
    simp only [CallsMeet,RunsMeet]
    cases fs.openFile inum offset length blknr with
    | none => exact isTrue trivial
    | some at_ =>
      dsimp only
      cases digestFirst inum offset length at_ with
      | none => infer_instance
      | some at_ => infer_instance
  | .alloc .. => decidableThroughout ..
  | .inode .. | .unlink _ => isTrue trivial

inductive Effect (P : CallCondition) : KernFs → KernFs → Prop where
  | create {fs fs' : KernFs} {inum mLblk mLen : Nat} {map : MapResult} (met : P fs inum mLblk mLen)
      (done : fs.getBlocks inum mLblk mLen = some (map,fs')) : Effect P fs fs'
  | swap {fs : KernFs} {k l : Nat} (owned : k ∈ fs.dataBlocks) (log : fs.InLogs l) :
      Effect P fs {fs with map := updateMapTable table fs.map k l}
  | copy {fs : KernFs} {k l : Nat} (disk : Disk) (owned : k ∈ fs.dataBlocks) (log : fs.InLogs l) :
      Effect P fs {fs with map := (lblk2pblk table (lblk2pblk table fs.map k).2 l).2,disk := disk}
  | inode {fs : KernFs} {inum : Nat} {inode : Inode} (found : fs.inodes[inum]? = some inode)
      (itype : Option FileType) (size : Nat) :
      Effect P fs {fs with inodes := fs.inodes.set inum {inode with itype := itype,size := size}}
  | clear {fs : KernFs} {inum : Nat} {inode : Inode} (found : fs.inodes[inum]? = some inode)
      (itype : Option FileType) (size : Nat) :
      Effect P fs {fs with inodes := fs.inodes.set inum ⟨itype,size,emptyRoot⟩}

abbrev Effects (P : CallCondition) : KernFs → KernFs → Prop := Relation.ReflTransGen (Effect P)

def NoCall : CallCondition := fun _ _ _ _ => False

-- An entry allocates first, may then cut a file, and makes no further call after that.
structure Digested (P : CallCondition) (fs fs' : KernFs) : Prop where
  parts : ∃ grown cut, Effects P fs grown ∧
    (cut = grown ∨ ∃ inum start stop, grown.truncate inum start stop = some cut) ∧ Effects NoCall cut fs'

variable {fs' fs : KernFs} {inum offset length libfsId nrBlocks logEnd : Nat} {at_ next : Digesting}

theorem getBlocks_parts {mLblk mLen : Nat} {map : MapResult}
    (done : fs.getBlocks inum mLblk mLen = some (map,fs')) :
    ∃ inode root sb, fs.inodes[inum]? = some inode ∧
      mlfsExtGetBlocks inode.root fs.sb (mLblk % 2 ^ 32) mLen true = some (map,root,sb) ∧
      fs' = {fs with sb := sb,inodes := fs.inodes.set inum {inode with root := root}} := by
  obtain ⟨inode,found,done⟩ := bind_eq_some_iff.mp done
  obtain ⟨⟨result,root,sb⟩,got,done⟩ := bind_eq_some_iff.mp done
  cases done
  exact ⟨inode,root,sb,found,got,rfl⟩

theorem truncate_parts {start stop : Nat} (done : fs.truncate inum start stop = some fs') :
    ∃ inode root sb, fs.inodes[inum]? = some inode ∧
      mlfsExtTruncate inode.root (start % 2 ^ 32) (stop % 2 ^ 32) fs.sb = some (root,sb) ∧
      fs' = {fs with sb := sb,inodes := fs.inodes.set inum {inode with root := root}} := by
  obtain ⟨inode,found,done⟩ := bind_eq_some_iff.mp done
  obtain ⟨⟨root,sb⟩,got,done⟩ := bind_eq_some_iff.mp done
  cases done
  exact ⟨inode,root,sb,found,got,rfl⟩

theorem copyBlock_parts {libfsLblk kernfsLblk size : Nat}
    (done : fs.copyBlock libfsLblk kernfsLblk offset size = some fs') :
    0 < size ∧ fs' = { fs with
      map := (lblk2pblk table (lblk2pblk table fs.map kernfsLblk).2 libfsLblk).2
      disk := copyBytes fs.disk (lblk2pblk table (lblk2pblk table fs.map kernfsLblk).2 libfsLblk).1
        (lblk2pblk table fs.map kernfsLblk).1 offset size } := by
  unfold KernFs.copyBlock at done
  simp only at done
  split at done
  · cases done
  · cases done
    exact ⟨by omega,rfl⟩

theorem openFile_parts {blknr : Nat}
    (done : fs.openFile inum offset length blknr = some at_) :
    ∃ inode, fs.inodes[inum]? = some inode ∧ inode.itype ≠ none ∧
      at_ = ⟨{fs with inodes := fs.inodes.set inum {inode with size := max inode.size (offset + length)}},offset,
        blknr * gBlockSizeBytes,length,0⟩ := by
  obtain ⟨inode,found,done⟩ := bind_eq_some_iff.mp done
  simp only at done
  split at done
  · cases done
  · rename_i typed
    cases done
    exact ⟨inode,found,typed,rfl⟩

theorem mem_dataBlocks {inode : Inode} (found : fs.inodes[inum]? = some inode) {b : Nat}
    (named : b ∈ extentBlocks (extents inode.root.node)) : b ∈ fs.dataBlocks := by
  obtain ⟨rest,before,_⟩ := sum_map_set (fun inode : Inode => extentBlocks (extents inode.root.node)) found
  unfold KernFs.dataBlocks
  rw [before]
  exact Multiset.mem_add.mpr (Or.inr named)

theorem getBlocks_data {mLblk mLen : Nat} {map : MapResult}
    (done : fs.getBlocks inum mLblk mLen = some (map,fs')) : ∀ i < map.ret, map.mPblk + i ∈ fs'.dataBlocks := by
  obtain ⟨inode,root,sb,found,got,rfl⟩ := getBlocks_parts done
  intro i bound
  have inside : inum < fs.inodes.length := (List.getElem?_eq_some_iff.mp found).1
  have now : (fs.inodes.set inum {inode with root := root})[inum]? = some {inode with root := root} := by simp [inside]
  exact mem_dataBlocks now (getBlocks_owned got i bound)

theorem step_write {blk size : Nat} {bytes : Nat → UInt8} :
    step fs (.write libfsId blk offset size bytes) = some fs' ↔
      fs.OwnLog libfsId blk ∧ logWrite fs blk offset size bytes = fs' := by
  simp only [step]
  split
  · rename_i own
    simp [own]
  · rename_i foreign
    simp [foreign]

theorem step_digest {entry : LogEntry} :
    step fs (.digest libfsId entry) = some fs' ↔ entry.FromLog fs libfsId ∧ digestEntry fs libfsId entry = some fs' := by
  simp only [step]
  split
  · rename_i own
    simp [own]
  · rename_i foreign
    simp [foreign]

theorem digestRun_iff :
    digestRun inum nrBlocks logEnd at_ = some next ↔ at_.curOffset % gBlockSizeBytes = 0 ∧ ∃ map fs₁ fs₂,
      at_.fs.getBlocks inum (at_.curOffset / gBlockSizeBytes) (nrBlocks - at_.nrDigestedBlocks) = some (map,fs₁) ∧
      ¬ (map.mPblk = 0 ∨ nrBlocks - at_.nrDigestedBlocks < map.ret ∨ map.ret = 0) ∧
      ¬ logEnd ≤ at_.data / gBlockSizeBytes + (map.ret - 1) ∧
      ({fs₁ with map := updateMapTables fs₁.map map.mPblk (at_.data / gBlockSizeBytes) (map.ret - 1)} : KernFs).digestLast
        at_.length2allocate map.ret (map.mPblk + (map.ret - 1)) (at_.data / gBlockSizeBytes + (map.ret - 1)) = some fs₂ ∧
      next = ⟨fs₂,at_.curOffset + map.ret * gBlockSizeBytes,at_.data + map.ret * gBlockSizeBytes,
        at_.length2allocate - map.ret * gBlockSizeBytes,at_.nrDigestedBlocks + map.ret⟩ := by
  constructor
  · intro done
    unfold digestRun at done
    split at done
    · cases done
    · rename_i aligned
      obtain ⟨⟨map,fs₁⟩,got,done⟩ := bind_eq_some_iff.mp done
      simp only at done
      split at done
      · cases done
      · rename_i checked
        split at done
        · cases done
        · rename_i inside
          obtain ⟨fs₂,last,done⟩ := bind_eq_some_iff.mp done
          cases done
          exact ⟨by omega,map,fs₁,fs₂,got,checked,inside,last,rfl⟩
  · rintro ⟨aligned,map,fs₁,fs₂,got,checked,inside,last,rfl⟩
    have fine : ¬ at_.curOffset % gBlockSizeBytes ≠ 0 := by omega
    unfold digestRun
    simp only [if_neg fine,got,bind_eq_bind,bind_some,if_neg checked,if_neg inside,last]

theorem digestHead_iff :
    digestHead inum offset length at_ = some next ↔ ∃ map fs₁ fs₂,
      at_.fs.getBlocks inum (at_.curOffset / gBlockSizeBytes) 1 = some (map,fs₁) ∧ map.ret = 1 ∧
      fs₁.copyBlock (at_.data / gBlockSizeBytes) map.mPblk (offset % gBlockSizeBytes)
        (min length (gBlockSizeBytes - offset % gBlockSizeBytes)) = some fs₂ ∧
      next = ⟨fs₂,at_.curOffset + min length (gBlockSizeBytes - offset % gBlockSizeBytes),
        at_.data + min length (gBlockSizeBytes - offset % gBlockSizeBytes),
        at_.length2allocate - min length (gBlockSizeBytes - offset % gBlockSizeBytes),at_.nrDigestedBlocks + 1⟩ := by
  constructor
  · intro done
    unfold digestHead at done
    obtain ⟨⟨map,fs₁⟩,got,done⟩ := bind_eq_some_iff.mp done
    simp only at done
    split at done
    · rename_i one
      obtain ⟨fs₂,copied,done⟩ := bind_eq_some_iff.mp done
      cases done
      exact ⟨map,fs₁,fs₂,got,one,copied,rfl⟩
    · cases done
  · rintro ⟨map,fs₁,fs₂,got,one,copied,rfl⟩
    unfold digestHead
    simp only [got,bind_eq_bind,bind_some,if_pos one,copied]

theorem allocateRun_iff {blkLength : Nat} {at_ next : Allocating} :
    allocateRun inum blkLength at_ = some next ↔ ∃ map fs₁,
      at_.fs.getBlocks inum at_.blkAlloced (min allocSize (blkLength - at_.blkAlloced)) = some (map,fs₁) ∧ map.ret ≠ 0 ∧
      (at_.blkAlloced % 2 ^ 32 = 0 ∨ map.mPblk = at_.firstPblk + at_.blkAlloced) ∧
      next = ⟨fs₁,at_.blkAlloced + map.ret,if at_.blkAlloced % 2 ^ 32 = 0 then map.mPblk else at_.firstPblk⟩ := by
  constructor
  · intro done
    unfold allocateRun at done
    obtain ⟨⟨map,fs₁⟩,got,done⟩ := bind_eq_some_iff.mp done
    simp only at done
    split at done
    · cases done
    · rename_i some_
      split at done
      · rename_i first
        cases done
        exact ⟨map,fs₁,got,some_,Or.inl first,by rw [if_pos first]⟩
      · rename_i later
        split at done
        · cases done
        · rename_i joined
          cases done
          exact ⟨map,fs₁,got,some_,Or.inr (not_not.mp joined),by rw [if_neg later]⟩
  · rintro ⟨map,fs₁,got,some_,joined,rfl⟩
    unfold allocateRun
    simp only [got,bind_eq_bind,bind_some,if_neg some_]
    by_cases first : at_.blkAlloced % 2 ^ 32 = 0
    · simp only [if_pos first]
    · simp only [if_neg first,joined.resolve_left first,ne_eq,not_true_eq_false,if_false]

theorem callsMeet_true (fs : KernFs) (libfsId : Nat) (entry : LogEntry) :
    CallsMeet (fun _ _ _ _ => True) fs libfsId entry := by
  cases entry with
  | file inum offset length blknr =>
    simp only [CallsMeet]
    split
    · trivial
    · refine ⟨fun _ => trivial,?_⟩
      split
      · trivial
      · exact throughout_true _ _ _ _
  | alloc inum length => exact throughout_true _ _ _ _
  | inode | unlink => trivial

section Effects
variable {P : CallCondition}

theorem Effect.logs (effect : Effect P fs fs') : fs'.logStart = fs.logStart ∧ fs'.logs = fs.logs := by
  cases effect with
  | create met done =>
    obtain ⟨_,_,_,_,_,rfl⟩ := getBlocks_parts done
    exact ⟨rfl,rfl⟩
  | swap | copy | inode | clear => exact ⟨rfl,rfl⟩

theorem Effect.call_or_plain (effect : Effect P fs fs') :
    (∃ inum mLblk mLen map, P fs inum mLblk mLen ∧ fs.getBlocks inum mLblk mLen = some (map,fs')) ∨
      Effect NoCall fs fs' := by
  cases effect with
  | create met done => exact Or.inl ⟨_,_,_,_,met,done⟩
  | swap owned log => exact Or.inr (.swap owned log)
  | copy disk owned log => exact Or.inr (.copy disk owned log)
  | inode found itype size => exact Or.inr (.inode found itype size)
  | clear found itype size => exact Or.inr (.clear found itype size)

theorem effects_logs (effects : Effects P fs fs') :
    fs'.logStart = fs.logStart ∧ fs'.logs = fs.logs := by
  induction effects with
  | refl => exact ⟨rfl,rfl⟩
  | tail _ effect ih =>
    obtain ⟨start,logs⟩ := effect.logs
    exact ⟨start.trans ih.1,logs.trans ih.2⟩

theorem updateMapTables_effects (fs : KernFs) {k l count : Nat} (owned : ∀ i < count, k + i ∈ fs.dataBlocks)
    (log : ∀ i < count, fs.InLogs (l + i)) :
    Effects P fs {fs with map := updateMapTables fs.map k l count} := by
  induction count with
  | zero => exact .refl
  | succ count ih =>
    have earlier := ih (fun i bound => owned i (by omega)) (fun i bound => log i (by omega))
    exact earlier.tail (.swap (owned count (by omega)) (log count (by omega)))

theorem copyBlock_effects {l k size : Nat} (owned : k ∈ fs.dataBlocks) (log : fs.InLogs l)
    (done : fs.copyBlock l k offset size = some fs') : Effects P fs fs' := by
  obtain ⟨_,rfl⟩ := copyBlock_parts done
  exact .single (.copy _ owned log)

theorem digestRun_effects
    (met : P at_.fs inum (at_.curOffset / gBlockSizeBytes) (nrBlocks - at_.nrDigestedBlocks))
    (low : at_.fs.logStart * gBlockSizeBytes ≤ at_.data) (high : logEnd ≤ at_.fs.logStart + at_.fs.logs * gLogSize)
    (done : digestRun inum nrBlocks logEnd at_ = some next) :
    Effects P at_.fs next.fs ∧ at_.data ≤ next.data := by
  obtain ⟨_,map,fs₁,fs₂,got,checked,inside,moved,rfl⟩ := digestRun_iff.mp done
  have called : Effect P at_.fs fs₁ := .create met got
  obtain ⟨start,logs⟩ := called.logs
  have owned := getBlocks_data got
  have log : ∀ i < map.ret, fs₁.InLogs (at_.data / gBlockSizeBytes + i) := by
    intro i bound
    unfold KernFs.InLogs
    rw [start,logs]
    simp only [gBlockSizeBytes] at *
    omega
  have swapped : Effects P fs₁
      {fs₁ with map := updateMapTables fs₁.map map.mPblk (at_.data / gBlockSizeBytes) (map.ret - 1)} :=
    updateMapTables_effects fs₁ (fun i bound => owned i (by omega)) (fun i bound => log i (by omega))
  have last : Effects P
      {fs₁ with map := updateMapTables fs₁.map map.mPblk (at_.data / gBlockSizeBytes) (map.ret - 1)} fs₂ := by
    unfold KernFs.digestLast at moved
    split at moved
    · exact copyBlock_effects (owned _ (by omega)) (log _ (by omega)) moved
    · cases moved
      exact .single (.swap (owned _ (by omega)) (log _ (by omega)))
  exact ⟨(Relation.ReflTransGen.single called).trans (swapped.trans last),Nat.le_add_right _ _⟩

theorem digestRuns_effects {final : Digesting}
    (met : RunsMeet P inum nrBlocks logEnd at_) (low : at_.fs.logStart * gBlockSizeBytes ≤ at_.data)
    (high : logEnd ≤ at_.fs.logStart + at_.fs.logs * gLogSize)
    (done : digestRuns inum nrBlocks logEnd at_ = some final) : Effects P at_.fs final.fs := by
  have inv := loop_invariant (fun now => Effects P at_.fs now.fs ∧ at_.data ≤ now.data)
    (fun now next known _ call stepped => by
      obtain ⟨effects,further⟩ := known
      obtain ⟨start,logs⟩ := effects_logs effects
      obtain ⟨more,later⟩ := digestRun_effects call (by rw [start]; omega) (by rw [start,logs]; exact high) stepped
      exact ⟨effects.trans more,further.trans later⟩)
    ⟨.refl,le_refl _⟩ met done
  exact inv.1.1

theorem digestHead_effects (same : at_.curOffset = offset)
    (met : P at_.fs inum (offset / gBlockSizeBytes) 1) (log : at_.fs.InLogs (at_.data / gBlockSizeBytes))
    (done : digestHead inum offset length at_ = some next) :
    Effects P at_.fs next.fs ∧ at_.data ≤ next.data := by
  obtain ⟨map,fs₁,fs₂,got,one,copied,rfl⟩ := digestHead_iff.mp done
  rw [same] at got
  have called : Effect P at_.fs fs₁ := .create met got
  obtain ⟨start,logs⟩ := called.logs
  have owned : map.mPblk ∈ fs₁.dataBlocks := getBlocks_data got 0 (by omega)
  have copying : Effects P fs₁ fs₂ := by
    refine copyBlock_effects owned ?_ copied
    unfold KernFs.InLogs
    rw [start,logs]
    exact log
  exact ⟨(Relation.ReflTransGen.single called).trans copying,Nat.le_add_right _ _⟩

theorem digestFile_parts {blknr : Nat} (done : digestFile fs libfsId inum offset length blknr = some fs') :
    ∃ at₀ at₁ at₂, fs.openFile inum offset length blknr = some at₀ ∧ digestFirst inum offset length at₀ = some at₁ ∧
      digestRuns inum (nrBlocksOf length) (fs.logEnd libfsId) at₁ = some at₂ ∧ fs' = at₂.fs := by
  obtain ⟨at₀,opened,done⟩ := bind_eq_some_iff.mp done
  obtain ⟨at₁,first,done⟩ := bind_eq_some_iff.mp done
  obtain ⟨at₂,rest,done⟩ := bind_eq_some_iff.mp done
  cases done
  exact ⟨at₀,at₁,at₂,opened,first,rest,rfl⟩

theorem digestFile_effects {blknr : Nat}
    (met : CallsMeet P fs libfsId (.file inum offset length blknr)) (own : fs.OwnLog libfsId blknr)
    (done : digestFile fs libfsId inum offset length blknr = some fs') : Effects P fs fs' := by
  obtain ⟨at₀,at₁,at₂,opened,first,rest,rfl⟩ := digestFile_parts done
  unfold CallsMeet at met
  simp only [opened,first] at met
  obtain ⟨headMet,runsMet⟩ := met
  obtain ⟨inode,found,_,rfl⟩ := openFile_parts opened
  have ends := own.ends
  obtain ⟨_,low,high⟩ := own
  have sized : Effect P fs
      {fs with inodes := fs.inodes.set inum {inode with size := max inode.size (offset + length)}} :=
    .inode found inode.itype _
  have head : Effects P {fs with inodes := fs.inodes.set inum {inode with size := max inode.size (offset + length)}}
      at₁.fs ∧ blknr * gBlockSizeBytes ≤ at₁.data := by
    unfold digestFirst at first
    split at first
    · rename_i inner
      refine digestHead_effects rfl (headMet inner) ?_ first
      have block : blknr * gBlockSizeBytes / gBlockSizeBytes = blknr := Nat.mul_div_cancel _ (by decide)
      unfold KernFs.InLogs
      simp only [block]
      omega
    · cases first
      exact ⟨.refl,le_refl _⟩
  obtain ⟨headed,further⟩ := head
  obtain ⟨start,logs⟩ := effects_logs headed
  have before : fs.logStart * gBlockSizeBytes ≤ blknr * gBlockSizeBytes := Nat.mul_le_mul_right _ (by omega)
  have looped := digestRuns_effects runsMet (by rw [start]; exact before.trans further)
    (by rw [start,logs]; exact ends) rest
  exact (Relation.ReflTransGen.single sized).trans (headed.trans looped)

theorem digestAllocate_effects
    (met : CallsMeet P fs libfsId (.alloc inum length)) (done : digestAllocate fs inum length = some fs') :
    Effects P fs fs' := by
  obtain ⟨inode,found,done⟩ := bind_eq_some_iff.mp done
  split at done
  · cases done
  · obtain ⟨final,looped,done⟩ := bind_eq_some_iff.mp done
    cases done
    have inv := loop_invariant (fun now : Allocating => Effects P fs now.fs)
      (fun now next known _ call stepped => by
        obtain ⟨map,fs₁,got,_,_,rfl⟩ := allocateRun_iff.mp stepped
        have called : Effect P now.fs fs₁ := .create call got
        exact known.tail called)
      .refl met looped
    exact inv.1

theorem digestInode_digested {size : Nat} {itype : Option FileType}
    (done : digestInode fs inum itype size = some fs') : Digested P fs fs' := by
  obtain ⟨inode,found,done⟩ := bind_eq_some_iff.mp done
  obtain ⟨cut,shortened,done⟩ := bind_eq_some_iff.mp done
  obtain ⟨inode',found',done⟩ := bind_eq_some_iff.mp done
  cases done
  have typed : Effect P fs {fs with inodes := fs.inodes.set inum (inode.occupy itype)} := by
    unfold Inode.occupy
    split
    · exact .clear found itype inode.size
    · exact .inode found inode.itype inode.size
  refine ⟨⟨_,cut,.single typed,?_,.single (.inode found' inode'.itype size)⟩⟩
  unfold KernFs.shorten at shortened
  split at shortened
  · exact Or.inr ⟨_,_,_,shortened⟩
  · cases shortened
    exact Or.inl rfl

theorem digestUnlink_digested (done : digestUnlink fs inum = some fs') :
    Digested P fs fs' := by
  obtain ⟨inode,found,done⟩ := bind_eq_some_iff.mp done
  obtain ⟨cut,released,done⟩ := bind_eq_some_iff.mp done
  cases done
  unfold KernFs.release at released
  simp only at released
  split at released
  · obtain ⟨inode',root,sb,found',got,rfl⟩ := truncate_parts released
    have inside : inum < fs.inodes.length := (List.getElem?_eq_some_iff.mp found').1
    have still : (fs.inodes.set inum {inode' with root := root})[inum]? = some {inode' with root := root} := by
      simp [inside]
    exact ⟨⟨fs,_,.refl,Or.inr ⟨_,_,_,released⟩,.single (.clear still none 0)⟩⟩
  · cases released
    exact ⟨⟨fs,fs,.refl,Or.inl rfl,.single (.clear found none 0)⟩⟩

theorem digestEntry_digested {entry : LogEntry} (from_ : entry.FromLog fs libfsId)
    (met : CallsMeet P fs libfsId entry) (done : digestEntry fs libfsId entry = some fs') : Digested P fs fs' := by
  cases entry with
  | inode inum itype size => exact digestInode_digested done
  | file inum offset length blknr => exact ⟨⟨fs',fs',digestFile_effects met from_ done,Or.inl rfl,.refl⟩⟩
  | unlink inum => exact digestUnlink_digested done
  | alloc inum length => exact ⟨⟨fs',fs',digestAllocate_effects met done,Or.inl rfl,.refl⟩⟩

end Effects

end Assise.Digest
