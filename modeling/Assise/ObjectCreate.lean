import Assise.PathCache
import Assise.Digest

-- `mlfs_object_create` on a path that names an object. The type goes into the inode in memory; what is logged is one
-- inode entry, with the size as it is.
namespace Assise.ObjectCreate
open Directory hiding mlfsObjectCreate step
open Option
open Paths Namespace Lib.Runs

def objectFound (s : State) (path : CString) : Option Nat :=
  match s.dlookupFind path with
  | some ip => some ip
  | none => (nameiparent s.startLogTx path).bind fun (s,parent) =>
    parent.bind fun (dir,name) => (dirLookup (s.dirOf dir) name).2.map DirentData.inum

def fileType : IType → Option Digest.FileType
  | .free => none
  | .dir => some .dir
  | .file => some .file

-- Lookups fill caches. The types, the flags and the directory files stay.
structure SameFiles (s s' : State) : Prop where
  itype : ∀ inum, (s'.inodes inum).itype = (s.inodes inum).itype
  deleting : ∀ inum, (s'.inodes inum).deleting = (s.inodes inum).deleting
  entries : ∀ inum, (s'.dirOf inum).entries = (s.dirOf inum).entries
  loghdr : s'.loghdr = s.loghdr

theorem SameFiles.refl (s : State) : SameFiles s s := ⟨fun _ => rfl,fun _ => rfl,fun _ => rfl,rfl⟩

variable {s' s : State} {inum : Nat}

theorem SameFiles.trans {s'' : State} (first : SameFiles s s') (second : SameFiles s' s'') : SameFiles s s'' :=
  ⟨fun inum => (second.itype inum).trans (first.itype inum),fun inum => (second.deleting inum).trans (first.deleting inum),
    fun inum => (second.entries inum).trans (first.entries inum),second.loghdr.trans first.loghdr⟩

theorem SameFiles.withDlookup (same : SameFiles s s') (dlookup : List (CString × Nat)) :
    SameFiles s {s' with dlookup := dlookup} :=
  { same with }

theorem deCacheAdd_entries (dir : DirInode) (name : CString) (inum offset : Nat) :
    (deCacheAdd dir name inum offset).entries = dir.entries := by
  unfold deCacheAdd
  split <;> rfl

theorem scan_entries (name : CString) (dir : DirInode) (offset : Nat) (rest : List Dirent) :
    (scan name dir offset rest).1.entries = dir.entries := by
  induction rest generalizing dir offset with
  | nil => rfl
  | cons de rest ih =>
    unfold scan
    dsimp only
    split
    · exact deCacheAdd_entries ..
    · exact (ih ..).trans (deCacheAdd_entries ..)

theorem dirLookup_entries (dir : DirInode) (name : CString) : (dirLookup dir name).1.entries = dir.entries := by
  unfold dirLookup
  split
  · rfl
  · dsimp only
    split
    · rfl
    · exact scan_entries ..

theorem setDir_same {dir : DirInode} (same : dir.entries = (s.dirOf inum).entries) :
    SameFiles s (s.setDir inum dir) := by
  refine ⟨setDir_itype s inum dir,setDir_deleting s inum dir,fun other => ?_,rfl⟩
  by_cases here : other = inum
  · subst here
    rw [setDir_self,same]
  · unfold State.dirOf
    rw [setDir_other here]

theorem namexFrom_same (parent : Bool) (fuel : Nat) (s : State) (ip : Nat) (name path : CString) :
    SameFiles s (namexFrom parent fuel s ip name path).1 := by
  induction fuel generalizing s ip name path with
  | zero => exact .refl s
  | succ fuel ih =>
    unfold namexFrom
    split
    · exact .refl s
    · rename_i first rest _
      split
      · exact .refl s
      · split
        · exact .refl s
        · have kept := dirLookup_entries (s.dirOf ip) first
          split
          · rename_i looked
            rw [looked] at kept
            exact setDir_same kept
          · rename_i looked
            rw [looked] at kept
            exact (setDir_same kept).trans (ih ..)

variable {path : CString} {type : IType}

theorem nameiparent_same {result : Option (Nat × CString)}
    (found : nameiparent s path = some (s',result)) : SameFiles s s' := by
  unfold nameiparent at found
  obtain ⟨⟨parentPath,name⟩,_,rest⟩ := map_eq_some_iff.mp found
  have walked := namexFrom_same true (path.length + 1) s rootIno [] path
  dsimp only at rest
  split at rest
  · cases rest
    exact .refl _
  · change SameFiles s (namex s true path).1 at walked
    split at rest
    · rename_i step
      rw [step] at walked
      cases rest
      exact walked
    · rename_i step
      rw [step] at walked
      cases rest
      exact walked.withDlookup _

structure Kept (s s' : State) (inum : Nat) : Prop where
  itype : (s'.inodes inum).itype = (s.inodes inum).itype
  entries : (s'.dirOf inum).entries = (s.dirOf inum).entries
  names : ∀ name, edges s' inum name = edges s inum name

structure Retyped (s s' : State) (inum : Nat) (type : IType) : Prop where
  mine : (s'.inodes inum).itype = type
  others : ∀ other, other ≠ inum → (s'.inodes other).itype = (s.inodes other).itype
  entries : ∀ other, (s'.dirOf other).entries = (s.dirOf other).entries
  loghdr : s'.loghdr = [.inodeUpdate]

theorem setType_retyped {s₁ : State} (same : SameFiles s.startLogTx s₁)
    (done : (s₁.setType inum type).iupdate inum = some s') : Retyped s s' inum type := by
  unfold State.iupdate at done
  obtain ⟨_,same'⟩ := ite_none_left_eq_some.mp done
  cases same'
  refine ⟨?_,fun other apart => ?_,fun other => ?_,?_⟩
  · simp [State.addToLoghdr,State.setType,State.setInode]
  · rw [show (s.inodes other).itype = _ from (same.itype other).symm]
    simp [State.addToLoghdr,State.setType,State.setInode,apart]
  · rw [show (s.dirOf other).entries = _ from (same.entries other).symm]
    by_cases here : other = inum
    · subst here
      simp [State.dirOf,State.addToLoghdr,State.setType,State.setInode]
    · simp [State.dirOf,State.addToLoghdr,State.setType,State.setInode,here]
  · simp [State.addToLoghdr,State.setType,State.setInode,same.loghdr,State.startLogTx]

theorem create_retypes {object : Nat} {result : Option Nat}
    (found : objectFound s path = some object) (done : mlfsObjectCreate s path type inum = some (s',result)) :
    result = some object ∧ Retyped s s' object type := by
  unfold mlfsObjectCreate at done
  unfold objectFound at found
  dsimp only at done
  rw [show s.startLogTx.dlookupFind path = s.dlookupFind path from rfl] at done
  cases hit : s.dlookupFind path with
  | some ip =>
    rw [hit] at done found
    cases found
    obtain ⟨typed,updated,same⟩ := map_eq_some_iff.mp done
    cases same
    exact ⟨rfl,setType_retyped (.refl _) updated⟩
  | none =>
    rw [hit] at done found
    obtain ⟨⟨s₁,parent⟩,parents,rest⟩ := bind_eq_some_iff.mp done
    have same := nameiparent_same parents
    dsimp only at found rest
    rw [parents,bind_some] at found
    obtain ⟨⟨dir,name⟩,rfl,looked⟩ := bind_eq_some_iff.mp found
    obtain ⟨data,here,rfl⟩ := map_eq_some_iff.mp looked
    have kept := dirLookup_entries (s₁.dirOf dir) name
    dsimp only at rest
    cases lookup : dirLookup (s₁.dirOf dir) name with
    | mk dir' found' =>
      rw [lookup] at here kept rest
      cases here
      obtain ⟨typed,updated,same'⟩ := map_eq_some_iff.mp rest
      cases same'
      exact ⟨rfl,setType_retyped (same.trans (setDir_same kept)) updated⟩

-- Unless the path is cached, a creation does to the parent what `Directory.mlfsObjectCreate` does.
theorem create_directory {s₁ : State} {parent : Nat} {name : CString} {result : Option Nat}
    (uncached : s.dlookupFind path = none) (walked : nameiparent s.startLogTx path = some (s₁,some (parent,name)))
    (apart : parent ≠ inum) (done : mlfsObjectCreate s path type inum = some (s',result)) :
    s'.dirOf parent = Directory.mlfsObjectCreate (s₁.dirOf parent) name inum := by
  unfold mlfsObjectCreate at done
  unfold Directory.mlfsObjectCreate
  dsimp only at done
  rw [show s.startLogTx.dlookupFind path = none from uncached,walked] at done
  dsimp only [bind_some] at done
  cases looked : dirLookup (s₁.dirOf parent) name with
  | mk dir found =>
    rw [looked] at done
    cases found with
    | some data =>
      obtain ⟨typed,updated,same⟩ := map_eq_some_iff.mp done
      cases same
      rw [State.dirOf,(iupdate_some updated).1]
      by_cases here : parent = data.inum <;> simp [State.setType,State.setDir,State.setInode,here]
    | none =>
      unfold createIn at done
      obtain ⟨made,linked,same⟩ := map_eq_some_iff.mp done
      cases same
      have kept : made.dirOf parent = dir := by
        split at linked
        · rw [State.dirOf,(iupdate_some linked).1]
          simp [State.addToLoghdr,State.icreate,State.setDir,State.setInode,apart]
        · cases linked
          simp [State.dirOf,State.addToLoghdr,State.icreate,State.setDir,State.setInode,apart]
      have added : (addEntry made parent name inum).dirOf parent = dirAddEntry dir name inum := by
        unfold addEntry
        rw [kept]
        simp [State.dirOf,State.addToLoghdr,State.setDir,State.setInode]
      dsimp only
      split <;> exact added

theorem digest_keeps_file {kern : Digest.KernFs} {inode : Digest.Inode} (libfsId : Nat) (itype : Option Digest.FileType)
    (known : kern.inodes[inum]? = some inode) (typed : inode.itype ≠ none) :
    Digest.digestEntry kern libfsId (.inode inum itype inode.size) = some kern := by
  have occupied : inode.occupy itype = inode := if_neg typed
  have back : kern.inodes.set inum inode = kern.inodes := by
    obtain ⟨inside,rfl⟩ := List.getElem?_eq_some_iff.mp known
    exact List.set_getElem_self inside
  unfold Digest.digestEntry Digest.digestInode
  simp only [known,bind_eq_bind,bind_some,occupied,back,Digest.KernFs.shorten,lt_irrefl,and_false,if_false]

theorem create_keeps_object_iff {s s' : State} {path : CString} {type : IType} {inum object : Nat} {result : Option Nat}
    (found : objectFound s path = some object) (done : mlfsObjectCreate s path type inum = some (s',result)) :
    result = some object ∧ s'.loghdr = [.inodeUpdate] ∧
      (∀ (kern : Digest.KernFs) libfsId inode, kern.inodes[object]? = some inode → inode.itype ≠ none →
        Digest.digestEntry kern libfsId (.inode object (fileType (s'.inodes object).itype) inode.size) = some kern) ∧
      (∀ other, other ≠ object → Kept s s' other) ∧ (Kept s s' object ↔ (s.inodes object).itype = type) := by
  obtain ⟨same,retyped⟩ := create_retypes found done
  have names : ∀ other, (s'.inodes other).itype = (s.inodes other).itype → Kept s s' other := by
    intro other kept
    refine ⟨kept,retyped.entries other,fun name => ?_⟩
    unfold edges
    rw [kept,retyped.entries]
  refine ⟨same,retyped.loghdr,fun kern libfsId inode known typed => digest_keeps_file libfsId _ known typed,
    fun other apart => names other (retyped.others other apart),fun kept => ?_,fun asked => ?_⟩
  · rw [←kept.itype,retyped.mine]
  · exact names object (retyped.mine.trans asked.symm)

theorem create_keeps_object_again :
    ∃ s s', run step emptyTree [.create pathA 2] = some s ∧ mlfsObjectCreate s pathA.chars .file 3 = some (s',some 2) ∧ Kept s s' 2 := by
  obtain ⟨s,reached,found,typed,s',done⟩ : ∃ s, run step emptyTree [.create pathA 2] = some s ∧
      objectFound s pathA.chars = some 2 ∧ (s.inodes 2).itype = .file ∧
      ∃ s', mlfsObjectCreate s pathA.chars .file 3 = some (s',some 2) := by decide +kernel
  exact ⟨s,s',reached,done,(create_keeps_object_iff found done).2.2.2.2.mpr typed⟩

theorem run_then_call (calls : List Call) (c : Call) {P : State → Bool} {Q : State → Bool}
    (ran : (run step emptyTree calls).any (fun s => P s && (call s c).any fun (s',flag) => flag && Q s') = true) :
    ∃ s s', run step emptyTree calls = some s ∧ P s = true ∧ call s c = some (s',true) ∧ Q s' = true := by
  obtain ⟨s,reached,rest⟩ := (Option.any_eq_true _ _).mp ran
  obtain ⟨before,rest⟩ := Bool.and_eq_true_iff.mp rest
  obtain ⟨⟨s',flag⟩,done,rest⟩ := (Option.any_eq_true _ _).mp rest
  obtain ⟨rfl,after⟩ := Bool.and_eq_true_iff.mp rest
  exact ⟨s,s',reached,before,done,after⟩

def pathSlashA : Path := ⟨[47,47,97],by decide,by decide,by decide⟩

-- `mkdir` on the file "/a", cached or found as "//a": it is a directory. `open` with `O_CREAT` on the directory "/a":
-- it is a file, and "/a/x" is not found.
theorem mkdir_turns_file_into_directory :
    (∃ s s', run step emptyTree [.create pathA 2] = some s ∧ (s.inodes 2).itype = .file ∧
      objectFound s pathA.chars = some 2 ∧ call s (.mkdir pathA 3) = some (s',true) ∧ (s'.inodes 2).itype = .dir) ∧
    (∃ s s', run step emptyTree [.create pathA 2] = some s ∧ s.dlookupFind pathSlashA.chars = none ∧
      objectFound s pathSlashA.chars = some 2 ∧ call s (.mkdir pathSlashA 3) = some (s',true) ∧ (s'.inodes 2).itype = .dir) ∧
    ∃ s s', run step emptyTree [.mkdir pathA 2,.create pathAX 3] = some s ∧ (namex s false pathAX.chars).2.map Prod.fst = some 3 ∧
      call s (.create pathA 4) = some (s',true) ∧ (s'.inodes 2).itype = .file ∧ (namex s' false pathAX.chars).2 = none := by
  refine ⟨?_,?_,?_⟩
  · obtain ⟨s,s',reached,before,done,after⟩ := run_then_call [.create pathA 2] (.mkdir pathA 3)
      (P := fun s => (s.inodes 2).itype == .file && objectFound s pathA.chars == some 2)
      (Q := fun s => (s.inodes 2).itype == .dir) (by decide +kernel)
    simp only [Bool.and_eq_true,beq_iff_eq] at before after
    exact ⟨s,s',reached,before.1,before.2,done,after⟩
  · obtain ⟨s,s',reached,before,done,after⟩ := run_then_call [.create pathA 2] (.mkdir pathSlashA 3)
      (P := fun s => s.dlookupFind pathSlashA.chars == none && objectFound s pathSlashA.chars == some 2)
      (Q := fun s => (s.inodes 2).itype == .dir) (by decide +kernel)
    simp only [Bool.and_eq_true,beq_iff_eq] at before after
    exact ⟨s,s',reached,before.1,before.2,done,after⟩
  · obtain ⟨s,s',reached,before,done,after⟩ := run_then_call [.mkdir pathA 2,.create pathAX 3] (.create pathA 4)
      (P := fun s => (namex s false pathAX.chars).2.map Prod.fst == some 3)
      (Q := fun s => (s.inodes 2).itype == .file && (namex s false pathAX.chars).2 == none) (by decide +kernel)
    simp only [Bool.and_eq_true,beq_iff_eq] at before after
    exact ⟨s,s',reached,before,done,after.1,after.2⟩

end Assise.ObjectCreate
