import Assise.PathCache

-- Every live inode keeps one path from the root: what the calls have to avoid for it.
namespace Assise.Namespace
open Directory Paths Lib.Naming Lib.Runs Option

structure Whole (s : State) : Prop extends Tree s where
  reached : ∀ inum, (s.inodes inum).itype ≠ .free → ∃ names, walk (edges s) rootIno names = some inum

variable {s' s : State} {dir inum : Nat} {name : CString} {flag : Bool}

theorem Whole.congr (whole : Whole s) (same : s'.inodes = s.inodes) : Whole s' := by
  have kept : edges s' = edges s := by
    unfold edges State.dirOf
    rw [same]
  refine ⟨whole.toTree.congr same,fun inum live => ?_⟩
  rw [same] at live
  rw [kept]
  exact whole.reached inum live

theorem Whole.searched (whole : Whole s) (searched : Searched s s') : Whole s' := by
  refine ⟨whole.toTree.searched searched,fun inum live => ?_⟩
  rw [searched.itype] at live
  rw [searched.edges]
  exact whole.reached inum live

theorem Whole.path_of_dir (whole : Whole s) (isDir : (s.inodes dir).itype = .dir) :
    ∃ names, walk (edges s) rootIno names = some dir :=
  whole.reached dir (by rw [isDir]; simp)

theorem Whole.no_loop (whole : Whole s) (isDir : (s.inodes dir).itype = .dir) (name : CString) :
    edges s dir name ≠ some dir := by
  intro named
  obtain ⟨names,walked⟩ := whole.path_of_dir isDir
  have equal := congrArg List.length (whole.single.walk_unique walked (walk_snoc walked named))
  simp at equal

def Empty (s : State) (inum : Nat) : Prop := (s.inodes inum).itype = .dir → (s.dirOf inum).entries = []

instance (s : State) (inum : Nat) : Decidable (Empty s inum) := by unfold Empty; infer_instance

theorem Empty.leaf (empty : Empty s inum) (name : CString) : edges s inum name = none := by
  unfold edges
  split
  · rename_i isDir
    rw [empty isDir]
    rfl
  · rfl

theorem Whole.removeTarget (whole : Whole s) (path : CString)
    (isDir : (s.inodes dir).itype = .dir) (short : name.length < dirsiz)
    (empty : ∀ target ∈ edges s dir name, Empty s target) : Whole (removeTarget s path dir name) := by
  refine ⟨whole.toTree.removeTarget path isDir short,fun inum live => ?_⟩
  cases named : edges s dir name with
  | none =>
    obtain ⟨searched,_⟩ := removeTarget_missing path whole.partly isDir short named
    exact (whole.searched searched).reached inum live
  | some target =>
    obtain ⟨_,same,gone,others,_⟩ := removeTarget_found path whole.partly isDir short named
    have other : inum ≠ target := by
      rintro rfl
      exact live gone.1
    rw [(others inum other).1] at live
    obtain ⟨names,walked⟩ := whole.reached inum live
    obtain ⟨parent,found⟩ := whole.path_of_dir isDir
    refine ⟨names,?_⟩
    rw [same,walk_cut (whole.single.lost named)]
    exact whole.single.walk_unbind_leaf found named (empty target named).leaf walked other

theorem Whole.move (whole : Whole s) {dir' target : Nat} {name' : CString}
    (isDir : (s.inodes dir).itype = .dir) (isDir' : (s.inodes dir').itype = .dir)
    (named : edges s dir name = some target) (notBelow : ∀ rest, walk (edges s) target rest ≠ some dir')
    (free : rebind (edges s) dir name none dir' name' = none)
    (moved : Renamed s s' (rebind (rebind (edges s) dir name none) dir' name' (some target))) : Whole s' := by
  refine ⟨whole.toTree.move named moved,fun inum live => ?_⟩
  rw [moved.itype] at live
  obtain ⟨names,walked⟩ := whole.reached inum live
  obtain ⟨parent,found⟩ := whole.path_of_dir isDir
  obtain ⟨parent',found'⟩ := whole.path_of_dir isDir'
  rw [moved.edges]
  exact whole.single.walk_move found named found' notBelow free walked

theorem Whole.not_above (whole : Whole s) {target : Nat}
    (isDir : (s.inodes dir).itype = .dir) (named : edges s dir name = some target) (rest : List CString) :
    walk (edges s) target rest ≠ some dir := by
  intro walked
  obtain ⟨parent,found⟩ := whole.path_of_dir isDir
  have equal := congrArg List.length (whole.single.walk_unique found (walk_join (walk_snoc found named) walked))
  simp only [List.length_append,List.length_singleton] at equal
  omega

theorem Whole.moveSource (whole : Whole s) {newpath : CString} {oldDir newDir : Nat}
    {oldName newName : CString} (oldIsDir : (s.inodes oldDir).itype = .dir)
    (newIsDir : (s.inodes newDir).itype = .dir) (oldShort : oldName.length < dirsiz) (entry : Entry newName)
    (missing : edges s newDir newName = none) (full : newDir ≠ oldDir → CanAdd s newDir)
    (few : s'.loghdr.length ≤ gMaxBlocksPerOperation)
    (notBelow : newDir ≠ oldDir → ∀ target ∈ edges s oldDir oldName, ∀ rest, walk (edges s) target rest ≠ some newDir)
    (done : moveSource s newpath oldDir oldName newDir newName = some (s',flag)) : Whole s' := by
  rcases moveSource_cases whole.partly oldIsDir newIsDir oldShort entry missing full few done with
    ⟨searched,_⟩ | ⟨target,after,named,free,moved,⟨rfl,rfl⟩ | ⟨apart,rfl⟩⟩
  · exact whole.searched searched
  · exact whole.move oldIsDir oldIsDir named (whole.not_above oldIsDir named) free moved
  · have kept : Whole after := whole.move oldIsDir newIsDir named (notBelow apart target named) free moved
    exact kept.congr rfl

theorem Whole.createIn (whole : Whole s) {path : CString} {type : IType}
    {result : Option Nat} (isDir : (s.inodes dir).itype = .dir) (full : fullCache (s.dirOf dir)) (entry : Entry name)
    (missing : edges s dir name = none) (kind : type ≠ .free) (free : (s.inodes inum).itype = .free)
    (done : createIn s path type inum dir name = some (s',result)) : Whole s' := by
  obtain ⟨after,tree,bound,_,others,rfl⟩ := whole.toTree.createIn isDir full entry missing kind free done
  have kept : Whole after := by
    refine ⟨tree,fun other live => ?_⟩
    rw [bound]
    by_cases new : other = inum
    · subst new
      obtain ⟨parent,found⟩ := whole.path_of_dir isDir
      exact ⟨parent ++ [name],walk_snoc (walk_bind found missing) (rebind_self ..)⟩
    · rw [others other new] at live
      obtain ⟨names,walked⟩ := whole.reached other live
      exact ⟨names,walk_bind walked missing⟩
  split
  · exact kept.congr rfl
  · exact kept

def parentFound (s : State) (path : CString) : Option (Nat × CString) := (nameiparent s.startLogTx path).bind Prod.snd

-- A creation works in a directory, with a number that is free, and finds an object of the same type if it finds one.
def CreatesCarefully (s : State) (path : CString) (type : IType) (inum : Nat) : Prop :=
  (∀ ip ∈ s.dlookupFind path, (s.inodes ip).itype = type) ∧ (s.inodes inum).itype = .free ∧
    ∀ found ∈ parentFound s path, (s.inodes found.1).itype = .dir ∧ Entry found.2 ∧
      ∀ ip ∈ edges s found.1 found.2, (s.inodes ip).itype = type

instance (s : State) (path : CString) (type : IType) (inum : Nat) : Decidable (CreatesCarefully s path type inum) := by
  unfold CreatesCarefully
  infer_instance

def RemovesCarefully (s : State) (path : CString) : Prop :=
  ∀ found ∈ parentFound s path, (s.inodes found.1).itype = .dir ∧ ∀ ip ∈ edges s found.1 found.2, Empty s ip

instance (s : State) (path : CString) : Decidable (RemovesCarefully s path) := by
  unfold RemovesCarefully
  infer_instance

def parentsFound (s : State) (oldpath newpath : CString) : Option ((Nat × CString) × (Nat × CString)) :=
  (nameiparent s.startLogTx oldpath).bind fun (s,oldParent) => (nameiparent s newpath).bind fun (_,newParent) =>
    oldParent.bind fun old => newParent.map fun new => (old,new)

-- So is what is renamed over, and a directory is not moved below itself.
def RenamesCarefully (s : State) (oldpath newpath : CString) : Prop :=
  ∀ found ∈ parentsFound s oldpath newpath,
    (s.inodes found.1.1).itype = .dir ∧ (s.inodes found.2.1).itype = .dir ∧ Entry found.2.2 ∧
      (∀ ip ∈ edges s found.2.1 found.2.2, Empty s ip) ∧
      (found.2.1 ≠ found.1.1 → ∀ ip ∈ edges s found.1.1 found.1.2, ∀ rest, walk (edges s) ip rest ≠ some found.2.1)

def Careful (s : State) : Call → Prop
  | .lookup _ => True
  | .create path inum => CreatesCarefully s path.chars .file inum
  | .mkdir path inum => CreatesCarefully s path.chars .dir inum
  | .unlink path | .rmdir path => RemovesCarefully s path.chars
  | .rename oldpath newpath => RenamesCarefully s oldpath.chars newpath.chars

theorem Whole.namei (whole : Whole s) (path : Path) : Whole (namei s path.chars).1 := by
  obtain ⟨searched,_⟩ := namex_walk whole.partly path
  unfold Namespace.namei
  cases s.dlookupFind path.chars with
  | some inum => exact whole
  | none =>
    cases found : namex s false path.chars with
    | mk s' result =>
      rw [found] at searched
      have kept := whole.searched searched
      cases result with
      | none => exact kept
      | some pair => exact kept.congr rfl

theorem Whole.create (whole : Whole s) {path : Path} {type : IType} {result : Option Nat}
    (kind : type ≠ .free) (careful : CreatesCarefully s path.chars type inum)
    (done : mlfsObjectCreate s path.chars type inum = some (s',result)) : Whole s' := by
  obtain ⟨cachedType,free,parent⟩ := careful
  unfold mlfsObjectCreate at done
  dsimp only at done
  cases hit : s.startLogTx.dlookupFind path.chars with
  | some ip =>
    rw [hit] at done
    obtain ⟨after,updated,rest⟩ := map_eq_some_iff.mp done
    cases rest
    have same : (s.startLogTx.inodes ip).itype = type := cachedType ip hit
    exact whole.congr ((iupdate_some updated).1.trans (setType_same same))
  | none =>
    rw [hit] at done
    obtain ⟨⟨s₁,found⟩,returned,rest⟩ := bind_eq_some_iff.mp done
    have searched := nameiparent_searched (s:=s.startLogTx) whole.partly path.short returned
    have kept : Whole s₁ := (show Whole s.startLogTx from whole.congr rfl).searched searched
    cases found with
    | none =>
      cases rest
      exact kept
    | some pair =>
      obtain ⟨dir,name⟩ := pair
      obtain ⟨isDir,entry,sameType⟩ := parent (dir,name) (by simp [parentFound,returned])
      have isDir₁ : (s₁.inodes dir).itype = .dir := (searched.itype dir).trans isDir
      have short := nameiparent_short (s:=s.startLogTx) whole.partly path.short returned
      have edge := dirLookup_edge kept.partly isDir₁ short
      have searched' := dirLookup_searched kept.partly dir short
      have missed := (dirLookup_lookedUp (kept.partly dir) short).missed
      dsimp only at rest
      cases looked : dirLookup (s₁.dirOf dir) name with
      | mk dir' data =>
        rw [looked] at rest edge searched' missed
        have kept' := kept.searched searched'
        cases data with
        | some data =>
          obtain ⟨after,updated,same⟩ := map_eq_some_iff.mp rest
          cases same
          have named : edges s dir name = some data.inum := by
            rw [searched.edges] at edge
            exact edge.symm
          have same : ((s₁.setDir dir dir').inodes data.inum).itype = type := by
            rw [setDir_itype,searched.itype]
            exact sameType data.inum named
          exact kept'.congr ((iupdate_some updated).1.trans (setType_same same))
        | none =>
          refine kept'.createIn ?_ ?_ entry ?_ kind ?_ rest
          · rw [setDir_itype]
            exact isDir₁
          · rw [setDir_self]
            exact missed rfl
          · rw [searched'.edges]
            exact edge.symm
          · rw [setDir_itype,searched.itype]
            exact free

theorem Whole.unlink (whole : Whole s) {path : Path}
    (careful : RemovesCarefully s path.chars) (done : mlfsPosixUnlink s path.chars = some (s',flag)) : Whole s' := by
  unfold mlfsPosixUnlink at done
  obtain ⟨⟨s₁,found⟩,returned,rest⟩ := map_eq_some_iff.mp done
  have searched := nameiparent_searched (s:=s.startLogTx) whole.partly path.short returned
  have kept : Whole s₁ := (show Whole s.startLogTx from whole.congr rfl).searched searched
  cases found with
  | none =>
    cases rest
    exact kept
  | some pair =>
    obtain ⟨dir,name⟩ := pair
    obtain ⟨isDir,empty⟩ := careful (dir,name) (by simp [parentFound,returned])
    have short := nameiparent_short (s:=s.startLogTx) whole.partly path.short returned
    have removed := kept.removeTarget path.chars ((searched.itype dir).trans isDir) short fun target named => by
      unfold Empty
      rw [searched.itype,searched.entries]
      rw [searched.edges] at named
      exact empty target named
    unfold Namespace.removeTarget at removed
    dsimp only at rest
    cases gone : removeEntry s₁ dir name with
    | mk after target =>
      rw [gone] at rest removed
      cases target with
      | none => cases rest; exact removed
      | some ip => cases rest; exact removed

theorem Whole.rename (whole : Whole s) {oldpath newpath : Path}
    (careful : RenamesCarefully s oldpath.chars newpath.chars) (few : s'.loghdr.length ≤ gMaxBlocksPerOperation)
    (done : mlfsPosixRename s oldpath.chars newpath.chars = some (s',flag)) : Whole s' := by
  unfold mlfsPosixRename at done
  obtain ⟨⟨s₁,oldFound⟩,returned₁,rest⟩ := bind_eq_some_iff.mp done
  obtain ⟨⟨s₂,newFound⟩,returned₂,rest⟩ := bind_eq_some_iff.mp rest
  have searched₁ := nameiparent_searched (s:=s.startLogTx) whole.partly oldpath.short returned₁
  have searched₂ := nameiparent_searched searched₁.partly newpath.short returned₂
  have searched := searched₁.trans searched₂
  have kept : Whole s₂ := (show Whole s.startLogTx from whole.congr rfl).searched searched
  cases oldFound with
  | none => cases rest
  | some oldPair =>
    cases newFound with
    | none => cases rest
    | some newPair =>
      obtain ⟨oldDir,oldName⟩ := oldPair
      obtain ⟨newDir,newName⟩ := newPair
      dsimp only at rest
      obtain ⟨oldIsDir,newIsDir,entry,empty,notBelow⟩ := careful ((oldDir,oldName),(newDir,newName))
        (by simp [parentsFound,returned₁,returned₂])
      have oldShort := nameiparent_short (s:=s.startLogTx) whole.partly oldpath.short returned₁
      have newShort := nameiparent_short searched₁.partly newpath.short returned₂
      have sameEdges : edges s₂ = edges s := searched.edges
      have oldIsDir₂ : (s₂.inodes oldDir).itype = .dir := (searched.itype oldDir).trans oldIsDir
      have newIsDir₂ : (s₂.inodes newDir).itype = .dir := (searched.itype newDir).trans newIsDir
      have removed := kept.removeTarget newpath.chars newIsDir₂ newShort fun target named => by
        unfold Empty
        rw [searched.itype,searched.entries]
        rw [sameEdges] at named
        exact empty target named
      have removed' : Whole ((Namespace.removeTarget s₂ newpath.chars newDir newName).dlookupDel oldpath.chars) :=
        removed.congr rfl
      cases target : edges s newDir newName with
      | none =>
        obtain ⟨searched₃,_,full⟩ := removeTarget_missing newpath.chars kept.partly newIsDir₂ newShort
          (by rw [sameEdges,target])
        have edges₃ : edges ((Namespace.removeTarget s₂ newpath.chars newDir newName).dlookupDel oldpath.chars) =
            edges s := searched₃.edges.trans sameEdges
        refine removed'.moveSource ((searched₃.itype oldDir).trans oldIsDir₂) ((searched₃.itype newDir).trans newIsDir₂)
          oldShort entry ?_ (fun _ => .inl full) few (fun apart => ?_) rest
        · rw [edges₃,target]
        · rw [edges₃]
          exact notBelow apart
      | some ip =>
        obtain ⟨_,edges₃,gone,others,_,full⟩ := removeTarget_found newpath.chars kept.partly newIsDir₂ newShort
          (by rw [sameEdges,target])
        have newOther : newDir ≠ ip := fun same => whole.no_loop newIsDir newName (by rw [target,same])
        have edges₄ : edges ((Namespace.removeTarget s₂ newpath.chars newDir newName).dlookupDel oldpath.chars) =
            cut (rebind (edges s) newDir newName none) ip := edges₃.trans (by rw [sameEdges])
        by_cases oldOther : oldDir = ip
        · -- The target was the directory of the source: it is gone, and so is its cache.
          subst oldOther
          unfold Namespace.moveSource at rest
          have deleting : (((Namespace.removeTarget s₂ newpath.chars newDir newName).dlookupDel
              oldpath.chars).inodes oldDir).deleting = true := gone.2
          rw [if_neg newOther,if_pos deleting] at rest
          cases rest
        · refine removed'.moveSource ((others oldDir oldOther).1.trans oldIsDir₂)
            ((others newDir newOther).1.trans newIsDir₂) oldShort entry ?_ (fun _ => full newOther) few (fun apart => ?_) rest
          · rw [edges₄]
            unfold cut
            rw [Function.update_of_ne newOther,rebind_self]
          · intro source named path' walked
            rw [edges₄] at named walked
            have named' : edges s oldDir oldName = some source := by
              have old := (cut_some named).2
              exact unbind_some old
            refine notBelow apart source named' path' ?_
            -- Fewer names lead to the directory, not more.
            have fewer : ∀ {start last : Nat} {names : List CString},
                walk (cut (rebind (edges s) newDir newName none) ip) start names = some last →
                walk (edges s) start names = some last := by
              intro start last names
              induction names generalizing start with
              | nil => exact id
              | cons first more ih =>
                intro there
                rw [walk_cons,bind_eq_some_iff] at there ⊢
                obtain ⟨next,named,later⟩ := there
                exact ⟨next,unbind_some (cut_some named).2,ih later⟩
            exact fewer walked

theorem Whole.step {next : State} {c : Call} (whole : Whole s) (careful : Careful s c) (stepped : step s c = some next) :
    Whole next := by
  obtain ⟨flag,called,few⟩ := step_call stepped
  cases c with
  | lookup path =>
    cases called
    exact whole.namei path
  | create path inum | mkdir path inum =>
    obtain ⟨⟨after,inode⟩,created,same⟩ := map_eq_some_iff.mp called
    cases same
    exact whole.create (by simp) careful created
  | unlink path | rmdir path => exact whole.unlink careful called
  | rename oldpath newpath => exact whole.rename careful few called

theorem live_inodes_on_one_path (s final : State) (calls : List Call) (start : Whole s) (careful : Guarded step Careful s calls)
    (reached : run step s calls = some final) (inum : Nat) (live : (final.inodes inum).itype ≠ .free) :
    ∃! names, walk (edges final) rootIno names = some inum := by
  have whole : Whole final := invariant_run step Careful Whole
    (fun s c next whole careful stepped => whole.step careful stepped) s final calls start careful reached
  obtain ⟨names,walked⟩ := whole.reached inum live
  exact ⟨names,walked,fun other walked' => whole.single.walk_unique walked' walked⟩

-- Decided where source and target have one directory.
noncomputable instance (s : State) (oldpath newpath : CString) : Decidable (RenamesCarefully s oldpath newpath) := by
  unfold RenamesCarefully
  have below : ∀ ip dir, Decidable (∀ rest, walk (edges s) ip rest ≠ some dir) := fun _ _ => Classical.propDecidable _
  infer_instance

noncomputable instance (s : State) : (c : Call) → Decidable (Careful s c)
  | .lookup _ => .isTrue trivial
  | .create path inum => inferInstanceAs (Decidable (CreatesCarefully s path.chars .file inum))
  | .mkdir path inum => inferInstanceAs (Decidable (CreatesCarefully s path.chars .dir inum))
  | .unlink path | .rmdir path => inferInstanceAs (Decidable (RemovesCarefully s path.chars))
  | .rename oldpath newpath => inferInstanceAs (Decidable (RenamesCarefully s oldpath.chars newpath.chars))

theorem emptyTree_whole : Whole emptyTree := by
  refine ⟨emptyTree_coherent.toTree,fun inum live => ⟨[],?_⟩⟩
  by_cases root : inum = rootIno
  · rw [root]
    rfl
  · exact absurd (if_neg root) live

def carefulCalls : List Call := [.mkdir pathA 2,.create pathAX 3,.create pathB 4,.rename pathAX pathAY,.unlink pathB]

theorem live_inodes_on_one_path_moved :
    ∃ final, run step emptyTree carefulCalls = some final ∧ (final.inodes 3).itype ≠ .free ∧
      ∃! names, walk (edges final) rootIno names = some 3 := by
  obtain ⟨final,reached,live⟩ : ∃ final, run step emptyTree carefulCalls = some final ∧ (final.inodes 3).itype ≠ .free := by
    decide +kernel
  exact ⟨final,reached,live,live_inodes_on_one_path emptyTree final carefulCalls emptyTree_whole (by decide +kernel) reached 3 live⟩

theorem walk_empty_root (nothing : (s.dirOf rootIno).entries = []) {names : List CString}
    (walked : walk (edges s) rootIno names = some inum) : inum = rootIno := by
  cases names with
  | nil => exact (Option.some.inj walked).symm
  | cons name more =>
    have missing : edges s rootIno name = none := by
      unfold edges
      rw [nothing]
      split <;> rfl
    rw [walk_cons,missing] at walked
    cases walked

-- `rmdir` of a directory with a file in it: the file stays allocated and no path leads to it.
theorem rmdir_orphans_file :
    ∃ final, run step emptyTree [.mkdir pathA 2,.create pathAX 3,.rmdir pathA] = some final ∧
      (final.inodes 3).itype = .file ∧ (final.inodes 3).deleting = false ∧
      ∀ names, walk (edges final) rootIno names ≠ some 3 := by
  obtain ⟨final,reached,file,alive,nothing⟩ :
      ∃ final, run step emptyTree [.mkdir pathA 2,.create pathAX 3,.rmdir pathA] = some final ∧
        (final.inodes 3).itype = .file ∧ (final.inodes 3).deleting = false ∧ (final.dirOf rootIno).entries = [] := by
    decide +kernel
  exact ⟨final,reached,file,alive,fun names walked => absurd (walk_empty_root nothing walked) (by decide)⟩

end Assise.Namespace
