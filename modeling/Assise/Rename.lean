import Assise.PathCache

-- When a rename that fails has changed nothing.
namespace Assise.Namespace
open Directory Paths Lib.Naming Lib.Runs

structure AsBefore (s s' : State) : Prop where
  inodes : ∀ inum, (s'.inodes inum).itype = (s.inodes inum).itype ∧ (s'.inodes inum).deleting = (s.inodes inum).deleting
  contents : ∀ inum, (s'.dirOf inum).entries = (s.dirOf inum).entries
  paths : ∀ path inum, s.dlookupFind path = some inum → s'.dlookupFind path = some inum
  names : ∀ inum (name : CString), name.length < dirsiz →
    (dirLookup (s'.dirOf inum) name).2 = (dirLookup (s.dirOf inum) name).2

variable {s' s : State} {path : CString}

theorem AsBefore.edges (same : AsBefore s s') : edges s' = edges s := by
  funext inum name
  unfold Namespace.edges
  rw [(same.inodes inum).1,same.contents]

theorem asBefore_of_searched (partly : AllPartlyCached s) (searched : Searched s s')
    (paths : ∀ path inum, s.dlookupFind path = some inum → s'.dlookupFind path = some inum) : AsBefore s s' := by
  refine ⟨fun inum => ⟨searched.itype inum,searched.deleting inum⟩,searched.entries,paths,fun inum name short => ?_⟩
  rw [(dirLookup_lookedUp (searched.partly inum) short).result,(dirLookup_lookedUp (partly inum) short).result,
    searched.entries]

def Extends (s s' : State) : Prop := ∃ news, s'.dlookup = news ++ s.dlookup ∧ ∀ e ∈ news, s.dlookupFind e.1 = none

theorem dlookupFind_append (news : List (CString × Nat)) (shape : s'.dlookup = news ++ s.dlookup) (other : ∀ e ∈ news, e.1 ≠ path) : s'.dlookupFind path = s.dlookupFind path := by
  unfold State.dlookupFind
  rw [shape,List.find?_append,List.find?_eq_none.mpr fun e member => by simpa using other e member]
  rfl

theorem Extends.find (extends' : Extends s s') {inum : Nat}
    (hit : s.dlookupFind path = some inum) : s'.dlookupFind path = some inum := by
  obtain ⟨news,shape,fresh⟩ := extends'
  rw [dlookupFind_append _ shape fun e member same => ?_]
  · exact hit
  · have missing := fresh e member
    rw [same,hit] at missing
    cases missing

theorem Extends.trans {s'' : State} (first : Extends s s') (second : Extends s' s'') : Extends s s'' := by
  obtain ⟨news,shape,fresh⟩ := first
  obtain ⟨news',shape',fresh'⟩ := second
  refine ⟨news' ++ news,by rw [shape',shape,List.append_assoc],fun e member => ?_⟩
  rcases List.mem_append.mp member with late | early
  · cases hit : s.dlookupFind e.1 with
    | none => rfl
    | some inum =>
      have found := Extends.find ⟨news,shape,fresh⟩ hit
      rw [fresh' e late] at found
      cases found
  · exact fresh e early

theorem Extends.forget (extends' : Extends s s') {inum : Nat}
    (hit : s.dlookupFind path = some inum) : (s'.dlookupDel path).dlookupFind path = (s.dlookupDel path).dlookupFind path := by
  obtain ⟨news,shape,fresh⟩ := extends'
  have other : ∀ e ∈ news, e.1 ≠ path := by
    intro e member same
    have missing := fresh e member
    rw [same,hit] at missing
    cases missing
  refine dlookupFind_append news ?_ other
  unfold State.dlookupDel
  dsimp only
  rw [shape]
  exact List.eraseP_append_right _ fun e member => by simpa using other e member

theorem dlookupDel_find_other {other : CString} (apart : other ≠ path) :
    (s.dlookupDel path).dlookupFind other = s.dlookupFind other := by
  unfold State.dlookupFind State.dlookupDel
  dsimp only
  congr 1
  induction s.dlookup with
  | nil => rfl
  | cons e rest ih =>
    by_cases here : e.1 = path
    · rw [List.eraseP_cons_of_pos (by simpa using here),List.find?_cons_of_neg]
      simpa [here] using Ne.symm apart
    · rw [List.eraseP_cons_of_neg (by simpa using here),List.find?_cons,List.find?_cons,ih]

theorem nameiparent_extends {result : Option (Nat × CString)} (partly : AllPartlyCached s)
    (short : ∀ name ∈ components path, name.length < dirsiz) (found : nameiparent s path = some (s',result)) :
    Extends s s' := by
  obtain ⟨parentPath,name,_,⟨inum,_,rfl,_⟩ | ⟨miss,walked,_,cache,_,_,rfl⟩⟩ := nameiparent_cases partly short found
  · exact ⟨[],rfl,by simp⟩
  · cases result with
    | none => exact ⟨[],cache,by simp⟩
    | some pair =>
      refine ⟨[(parentPath,pair.1)],?_,fun e member => ?_⟩
      · unfold cacheParent State.dlookupAllocAdd
        rw [cache]
        rfl
      · cases List.mem_singleton.mp member
        exact miss

theorem moveSource_flag {newpath : CString} {oldDir newDir : Nat} {oldName newName : CString} {flag : Bool}
    (partly : AllPartlyCached s) (isDir : (s.inodes oldDir).itype = .dir) (short : oldName.length < dirsiz)
    (done : moveSource s newpath oldDir oldName newDir newName = some (s',flag)) :
    flag = (edges s oldDir oldName).isSome ∧ (flag = false → Searched s s' ∧ s'.dlookup = s.dlookup) := by
  unfold moveSource at done
  split at done
  · rename_i same
    subst same
    have looked := dirLookup_edge partly isDir short
    cases named : edges s newDir oldName with
    | none =>
      obtain ⟨after,changed,searched,cache⟩ := changeEntry_missing partly isDir newName short named
      rw [changed] at done
      cases done
      exact ⟨rfl,fun _ => ⟨searched,cache⟩⟩
    | some target =>
      rw [named] at looked
      unfold changeEntry dirChangeEntry at done
      cases found : dirLookup (s.dirOf newDir) oldName with
      | mk dir' data =>
        rw [found] at looked done
        cases data with
        | none => cases looked
        | some data =>
          cases done
          exact ⟨rfl,nofun⟩
  · split at done
    · cases done
    · cases named : edges s oldDir oldName with
      | none =>
        obtain ⟨after,removed,searched,cache,_⟩ := removeEntry_missing partly isDir short named
        rw [removed] at done
        cases done
        exact ⟨rfl,fun _ => ⟨searched,cache⟩⟩
      | some target =>
        obtain ⟨after,removed,_⟩ := removeEntry_found partly isDir short named
        rw [removed] at done
        cases done
        exact ⟨rfl,nofun⟩

theorem moveSource_deleting {newpath : CString} {oldDir newDir : Nat} {oldName newName : CString}
    (gone : (s.inodes oldDir).deleting = true) (apart : newDir ≠ oldDir) :
    moveSource s newpath oldDir oldName newDir newName = none := by
  unfold moveSource
  rw [if_neg apart,if_pos gone]

-- The source is there under another name than the target's, or neither is there and no cached entry
-- of the old path is dropped.
def Undisturbed (s : State) (oldpath : CString) (oldDir : Nat) (oldName : CString) (newDir : Nat) (newName : CString) : Prop :=
  if (edges s oldDir oldName).isSome then ¬(oldDir = newDir ∧ oldName = newName)
  else edges s newDir newName = none ∧
    ∀ inum ∈ s.dlookupFind oldpath, (s.dlookupDel oldpath).dlookupFind oldpath = some inum

instance (s : State) (oldpath : CString) (oldDir : Nat) (oldName : CString) (newDir : Nat) (newName : CString) :
    Decidable (Undisturbed s oldpath oldDir oldName newDir newName) := by
  unfold Undisturbed
  infer_instance

theorem rename_all_or_nothing_iff (s s₁ s₂ s' : State) (oldpath newpath : Path) (oldDir newDir : Nat)
    (oldName newName : CString) (flag : Bool) (partly : AllPartlyCached s)
    (oldParent : nameiparent s.startLogTx oldpath.chars = some (s₁,some (oldDir,oldName)))
    (newParent : nameiparent s₁ newpath.chars = some (s₂,some (newDir,newName)))
    (oldIsDir : (s.inodes oldDir).itype = .dir) (newIsDir : (s.inodes newDir).itype = .dir)
    (noLoop : edges s newDir newName ≠ some newDir)
    (returned : mlfsPosixRename s oldpath.chars newpath.chars = some (s',flag)) :
    ((flag = false → AsBefore s s') ∧
      ∀ inum, oldDir = newDir → oldName = newName → edges s oldDir oldName = some inum →
        edges s' oldDir oldName = some inum ∧ (s'.inodes inum).deleting = false) ↔
      Undisturbed s oldpath.chars oldDir oldName newDir newName := by
  have searched₁ := nameiparent_searched (s:=s.startLogTx) partly oldpath.short oldParent
  have searched := searched₁.trans (nameiparent_searched searched₁.partly newpath.short newParent)
  have oldShort := nameiparent_short (s:=s.startLogTx) partly oldpath.short oldParent
  have newShort := nameiparent_short searched₁.partly newpath.short newParent
  have longer : Extends s s₂ := (show Extends s.startLogTx s₁ from nameiparent_extends partly oldpath.short oldParent).trans
    (nameiparent_extends searched₁.partly newpath.short newParent)
  have sameEdges : edges s₂ = edges s := searched.edges
  have newIsDir₂ : (s₂.inodes newDir).itype = .dir := (searched.itype newDir).trans newIsDir
  have oldIsDir₂ : (s₂.inodes oldDir).itype = .dir := (searched.itype oldDir).trans oldIsDir
  unfold mlfsPosixRename at returned
  rw [oldParent,Option.bind_some] at returned
  dsimp only at returned
  rw [newParent,Option.bind_some] at returned
  dsimp only at returned
  unfold Undisturbed
  cases target : edges s newDir newName with
  | none =>
    obtain ⟨searched₃,cache₃,_⟩ := removeTarget_missing newpath.chars searched.partly newIsDir₂ newShort
      (by rw [sameEdges,target])
    obtain ⟨flagged,failed⟩ := moveSource_flag (s:=(removeTarget s₂ newpath.chars newDir newName).dlookupDel oldpath.chars)
      searched₃.partly ((searched₃.itype oldDir).trans oldIsDir₂) oldShort returned
    have stillEdges : edges ((removeTarget s₂ newpath.chars newDir newName).dlookupDel oldpath.chars) = edges s :=
      searched₃.edges.trans sameEdges
    rw [stillEdges] at flagged
    cases source : edges s oldDir oldName with
    | some inum =>
      rw [source] at flagged
      have other : ¬(oldDir = newDir ∧ oldName = newName) := by
        rintro ⟨rfl,rfl⟩
        rw [target] at source
        cases source
      rw [if_pos Option.isSome_some,flagged]
      exact ⟨fun _ => other,fun _ => ⟨nofun,fun _ sameDir sameName _ => absurd ⟨sameDir,sameName⟩ other⟩⟩
    | none =>
      rw [source] at flagged
      obtain ⟨searched₄,cache₄⟩ := failed flagged
      have whole : Searched s.startLogTx s' := (searched.trans searched₃).trans { searched₄ with }
      have finds : ∀ path, s'.dlookupFind path = (s₂.dlookupDel oldpath.chars).dlookupFind path := by
        intro path
        unfold State.dlookupFind
        rw [cache₄]
        unfold State.dlookupDel
        rw [cache₃]
      rw [if_neg (by simp)]
      constructor
      · rintro ⟨same,_⟩
        refine ⟨rfl,fun inum hit => ?_⟩
        have kept := (same flagged).paths oldpath.chars inum hit
        rwa [finds,longer.forget hit] at kept
      · rintro ⟨_,kept⟩
        refine ⟨fun _ => ?_,fun inum _ _ named => nomatch named⟩
        have before : AsBefore s.startLogTx s' := asBefore_of_searched partly whole fun path inum hit => by
          rw [finds]
          by_cases here : path = oldpath.chars
          · subst here
            rw [longer.forget hit]
            exact kept inum hit
          · rw [dlookupDel_find_other here]
            exact longer.find hit
        exact { before with }
  | some ip =>
    obtain ⟨partly₃,edges₃,gone,others,_⟩ := removeTarget_found newpath.chars searched.partly newIsDir₂ newShort
      (by rw [sameEdges,target])
    rw [sameEdges] at edges₃
    have newOther : newDir ≠ ip := fun same => noLoop (by rw [target,same])
    have oldOther : oldDir ≠ ip := by
      rintro rfl
      have crashed : moveSource ((removeTarget s₂ newpath.chars newDir newName).dlookupDel oldpath.chars) newpath.chars oldDir
          oldName newDir newName = none := moveSource_deleting gone.2 newOther
      rw [crashed] at returned
      cases returned
    obtain ⟨flagged,failed⟩ := moveSource_flag (s:=(removeTarget s₂ newpath.chars newDir newName).dlookupDel oldpath.chars)
      partly₃ ((others oldDir oldOther).1.trans oldIsDir₂) oldShort returned
    have stillEdges : edges ((removeTarget s₂ newpath.chars newDir newName).dlookupDel oldpath.chars) =
        cut (rebind (edges s) newDir newName none) ip := edges₃
    -- Once the rename has failed, the target has no name any more.
    have lost : flag = false → edges s' newDir newName = none := by
      intro failure
      rw [(failed failure).1.edges,stillEdges]
      unfold cut
      rw [Function.update_of_ne newOther,rebind_self]
    by_cases same : oldDir = newDir ∧ oldName = newName
    · obtain ⟨rfl,rfl⟩ := same
      rw [target,if_pos Option.isSome_some]
      have missing : flag = false := by
        rw [flagged,stillEdges]
        unfold cut
        rw [Function.update_of_ne newOther,rebind_self]
        rfl
      constructor
      · rintro ⟨_,kept⟩
        have still := (kept ip rfl rfl rfl).1
        rw [lost missing] at still
        cases still
      · intro apart
        exact absurd ⟨rfl,rfl⟩ apart
    · have sameSource : flag = (edges s oldDir oldName).isSome := by
        rw [flagged,stillEdges]
        unfold cut
        rw [Function.update_of_ne oldOther,rebind_other same]
      cases source : edges s oldDir oldName with
      | some inum =>
        rw [source] at sameSource
        rw [if_pos Option.isSome_some,sameSource]
        exact ⟨fun _ => same,fun _ => ⟨nofun,fun _ sameDir sameName _ => absurd ⟨sameDir,sameName⟩ same⟩⟩
      | none =>
        rw [source] at sameSource
        rw [if_neg (by simp)]
        constructor
        · rintro ⟨before,_⟩
          have still := congrFun (congrFun (before sameSource).edges newDir) newName
          rw [lost sameSource,target] at still
          cases still
        · rintro ⟨absent,_⟩
          cases absent

def pathC : Path := ⟨[47,99],by decide,by decide,by decide⟩

theorem rename_all_or_nothing_missing :
    ∃ s s₁ s₂ s', run step emptyTree [.create pathB 2] = some s ∧
      nameiparent s.startLogTx pathA.chars = some (s₁,some (rootIno,[97])) ∧
      nameiparent s₁ pathC.chars = some (s₂,some (rootIno,[99])) ∧
      mlfsPosixRename s pathA.chars pathC.chars = some (s',false) ∧
      Undisturbed s pathA.chars rootIno [97] rootIno [99] ∧
      (((false = false → AsBefore s s') ∧ ∀ inum, rootIno = rootIno → ([97] : CString) = [99] →
          edges s rootIno [97] = some inum → edges s' rootIno [97] = some inum ∧ (s'.inodes inum).deleting = false) ↔
        Undisturbed s pathA.chars rootIno [97] rootIno [99]) := by
  obtain ⟨s,reached,⟨s₁,oldParent,s₂,newParent⟩,⟨s',returned⟩,dir,noLoop,undisturbed⟩ :
      ∃ s, run step emptyTree [.create pathB 2] = some s ∧
        (∃ s₁, nameiparent s.startLogTx pathA.chars = some (s₁,some (rootIno,[97])) ∧
          ∃ s₂, nameiparent s₁ pathC.chars = some (s₂,some (rootIno,[99]))) ∧
        (∃ s', mlfsPosixRename s pathA.chars pathC.chars = some (s',false)) ∧ (s.inodes rootIno).itype = .dir ∧
        edges s rootIno [99] ≠ some rootIno ∧ Undisturbed s pathA.chars rootIno [97] rootIno [99] := by decide +kernel
  have partly : AllPartlyCached s := (invariant_run step Straight Coherent
    (fun s c next coherent straight stepped => coherent.step straight stepped) emptyTree s _ emptyTree_coherent
    (by decide +kernel) reached).partly
  exact ⟨s,s₁,s₂,s',reached,oldParent,newParent,returned,undisturbed,rename_all_or_nothing_iff s s₁ s₂ s' pathA pathC rootIno
    rootIno [97] [99] false partly oldParent newParent dir dir noLoop returned⟩

-- A rename of "/a", which is not there, to the file "/b" fails and has deleted "/b", and so does a rename of "/b" to
-- itself.
theorem failed_rename_deletes_target :
    ∃ s, run step emptyTree [.create pathB 2] = some s ∧ walk (edges s) rootIno pathB.names = some 2 ∧
      (∃ s', mlfsPosixRename s pathA.chars pathB.chars = some (s',false) ∧
        walk (edges s') rootIno pathB.names = none ∧ (s'.inodes 2).deleting = true) ∧
      ∃ s', mlfsPosixRename s pathB.chars pathB.chars = some (s',false) ∧
        walk (edges s') rootIno pathB.names = none ∧ (s'.inodes 2).deleting = true := by decide +kernel

end Assise.Namespace
