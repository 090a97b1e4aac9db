import Assise.Namespace

-- What the calls on names do to the tree of names: each takes one edge away, adds one or moves one.
namespace Assise.Namespace
open Directory Paths Lib.Naming Function List

structure Tree (s : State) : Prop where
  partly : AllPartlyCached s
  single : Single (edges s) rootIno
  live : ∀ {inum name target}, edges s inum name = some target →
    (s.inodes target).itype ≠ .free ∧ (s.inodes target).deleting = false
  root : (s.inodes rootIno).itype = .dir ∧ (s.inodes rootIno).deleting = false

variable {target dir inum : Nat} {s s' : State} {e : Edges Nat CString} {name : CString}

theorem Tree.walk_live (tree : Tree s) {names : List CString}
    (walked : walk (edges s) rootIno names = some target) :
    (s.inodes target).itype ≠ .free ∧ (s.inodes target).deleting = false := by
  rcases eq_nil_or_concat' names with rfl | ⟨front,last,rfl⟩
  · cases walked
    exact ⟨by rw [tree.root.1]; simp,tree.root.2⟩
  · obtain ⟨middle,_,later⟩ := walk_split walked
    rw [walk_cons,Option.bind_eq_some_iff] at later
    obtain ⟨_,named,same⟩ := later
    cases same
    exact tree.live named

theorem Tree.searched (tree : Tree s) (searched : Searched s s') : Tree s' := by
  refine ⟨searched.partly,searched.edges ▸ tree.single,fun named => ?_,?_⟩
  · rw [searched.itype,searched.deleting]
    exact tree.live (searched.edges ▸ named)
  · rw [searched.itype,searched.deleting]
    exact tree.root

structure DirChanged (s s' : State) (dir : Nat) (e : Edges Nat CString) : Prop where
  itype : ∀ inum, (s'.inodes inum).itype = (s.inodes inum).itype
  deleting : ∀ inum, (s'.inodes inum).deleting = (s.inodes inum).deleting
  others : ∀ inum, inum ≠ dir → s'.dirOf inum = s.dirOf inum
  edges : edges s' = e
  partly : AllPartlyCached s'
  dlookup : s'.dlookup = s.dlookup

theorem edges_setDir (isDir : (s.inodes dir).itype = .dir) (dir' : DirInode) :
    edges (s.setDir dir dir') = update (edges s) dir (bound dir'.entries) := by
  funext inum name
  by_cases same : inum = dir
  · subst same
    rw [update_self,edges,setDir_itype,if_pos isDir,setDir_self]
  · rw [update_of_ne same,edges,edges,setDir_itype]
    unfold State.dirOf
    rw [setDir_other same]

theorem partly_setDir (partly : AllPartlyCached s) (dir : Nat) {dir' : DirInode} (here : PartlyCached dir') :
    AllPartlyCached (s.setDir dir dir') := by
  intro inum
  by_cases same : inum = dir
  · subst same
    rwa [setDir_self]
  · unfold State.dirOf
    rw [setDir_other same]
    exact partly inum

theorem setDir_changed (partly : AllPartlyCached s) (isDir : (s.inodes dir).itype = .dir)
    {dir' : DirInode} (here : PartlyCached dir')
    (rebound : update (edges s) dir (bound dir'.entries) = e) : DirChanged s (s.setDir dir dir') dir e := by
  refine ⟨setDir_itype s dir dir',setDir_deleting s dir dir',fun inum apart => ?_,?_,partly_setDir partly dir here,rfl⟩
  · unfold State.dirOf
    rw [setDir_other apart]
  · rw [edges_setDir isDir,rebound]

theorem DirChanged.withLoghdr (changed : DirChanged s s' dir e)
    (types : List LogType) : DirChanged s (s'.addToLoghdr types) dir e :=
  { changed with }

theorem edges_dir (isDir : (s.inodes dir).itype = .dir) :
    edges s dir = bound (s.dirOf dir).entries := by
  funext name
  exact if_pos isDir

theorem dirRemoveEntry_found {dir : DirInode} (partly : PartlyCached dir) (short : name.length < dirsiz) :
    (dirRemoveEntry dir name).2 = bound dir.entries name := by
  rw [←position_bound,←(dirLookup_lookedUp partly short).result]
  unfold dirRemoveEntry
  cases dirLookup dir name with
  | mk dir' found => cases found <;> rfl

section
variable (partly : AllPartlyCached s)
include partly

theorem removeEntry_found (isDir : (s.inodes dir).itype = .dir) (short : name.length < dirsiz) (named : edges s dir name = some target) :
    ∃ s', removeEntry s dir name = (s',some target) ∧ DirChanged s s' dir (rebind (edges s) dir name none) := by
  have result := dirRemoveEntry_found (partly dir) short
  obtain ⟨kept,fewer⟩ := (partly dir).remove short
  rw [←edges_dir isDir] at result fewer
  rw [named] at result
  unfold removeEntry
  cases removed : dirRemoveEntry (s.dirOf dir) name with
  | mk dir' found =>
    rw [removed] at result kept fewer
    cases result
    refine ⟨_,rfl,(setDir_changed partly isDir kept ?_).withLoghdr _⟩
    rw [fewer]
    rfl

theorem removeEntry_missing (isDir : (s.inodes dir).itype = .dir) (short : name.length < dirsiz) (missing : edges s dir name = none) :
    ∃ s', removeEntry s dir name = (s',none) ∧ Searched s s' ∧ s'.dlookup = s.dlookup ∧ fullCache (s'.dirOf dir) := by
  have searched := dirLookup_searched partly dir short
  have looked := dirLookup_lookedUp (partly dir) short
  have result : (dirLookup (s.dirOf dir) name).2 = none := by
    rw [←Option.map_eq_none_iff (f:=DirentData.inum),dirLookup_edge partly isDir short,missing]
  have full := looked.missed result
  unfold removeEntry dirRemoveEntry
  cases found : dirLookup (s.dirOf dir) name with
  | mk dir' other =>
    rw [found] at searched result full
    cases result
    refine ⟨_,rfl,searched,rfl,?_⟩
    rw [setDir_self]
    exact full

theorem changeEntry_found (isDir : (s.inodes dir).itype = .dir)
    {oldname newname : CString} (short : oldname.length < dirsiz) (entry : Entry newname)
    (fresh : edges s dir newname = none) (named : edges s dir oldname = some target) :
    ∃ s', changeEntry s dir oldname newname = (s',true) ∧
      DirChanged s s' dir (rebind (rebind (edges s) dir oldname none) dir newname (some target)) := by
  have looked := dirLookup_edge partly isDir short
  rw [edges_dir isDir] at fresh
  obtain ⟨kept,moved⟩ := (partly dir).change short entry (bound_none.mp fresh)
  rw [←edges_dir isDir,named] at moved
  rw [named] at looked
  have success : (dirChangeEntry (s.dirOf dir) oldname newname).2 = true := by
    unfold dirChangeEntry
    cases found : dirLookup (s.dirOf dir) oldname with
    | mk dir' other =>
      rw [found] at looked
      cases other with
      | none => cases looked
      | some data => rfl
  unfold changeEntry
  cases changed : dirChangeEntry (s.dirOf dir) oldname newname with
  | mk dir' flag =>
    rw [changed] at kept moved success
    cases success
    refine ⟨_,rfl,(setDir_changed partly isDir kept ?_).withLoghdr _⟩
    rw [moved]
    simp [rebind]

theorem changeEntry_missing (isDir : (s.inodes dir).itype = .dir)
    {oldname : CString} (newname : CString) (short : oldname.length < dirsiz) (missing : edges s dir oldname = none) :
    ∃ s', changeEntry s dir oldname newname = (s',false) ∧ Searched s s' ∧ s'.dlookup = s.dlookup := by
  have searched := dirLookup_searched partly dir short
  have result : (dirLookup (s.dirOf dir) oldname).2 = none := by
    rw [←Option.map_eq_none_iff (f:=DirentData.inum),dirLookup_edge partly isDir short,missing]
  unfold changeEntry dirChangeEntry
  cases found : dirLookup (s.dirOf dir) oldname with
  | mk dir' other =>
    rw [found] at searched result
    cases result
    exact ⟨_,rfl,searched,rfl⟩

theorem addEntry_changed (dir : Nat) (isDir : (s.inodes dir).itype = .dir)
    (full : fullCache (s.dirOf dir)) (entry : Entry name) (fresh : edges s dir name = none) (inum : Nat) :
    DirChanged s (addEntry s dir name inum) dir (rebind (edges s) dir name (some inum)) := by
  rw [edges_dir isDir] at fresh
  obtain ⟨kept,more⟩ := (partly dir).add full entry (bound_none.mp fresh) inum
  refine (setDir_changed partly isDir kept ?_).withLoghdr _
  rw [more,←edges_dir isDir]
  rfl

end

theorem removeFound_keeps {dir : DirInode} (partly : PartlyCached dir) {other : CString} {deOff : Nat}
    (cached : (dir.deCache other).isSome) (apart : other ≠ name) :
    ((removeFound dir name deOff).deCache other).isSome := by
  have first : ((deCacheDel dir name).deCache other).isSome := by
    rw [deCacheDel_eq]
    simpa only [update_of_ne apart] using cached
  have file : (deCacheDel dir name).entries = dir.entries := by rw [deCacheDel_eq]
  have size : (deCacheDel dir name).size = dir.size := by unfold DirInode.size; rw [file]
  unfold removeFound
  dsimp only
  generalize deCacheDel dir name = dir' at first file size
  split
  · rename_i inner
    rw [size] at inner
    -- The last entry comes back under its own name.
    obtain ⟨front,last,shape⟩ : ∃ front last, dir'.entries = front ++ [last] := by
      rcases eq_nil_or_concat' dir'.entries with nothing | ⟨front,last,shape⟩
      · rw [file] at nothing
        have distinct := partly.within
        rw [nothing] at distinct
        have hit := partly.cached other
        rw [nothing,take_nil] at hit
        rw [hit] at cached
        cases cached
      · exact ⟨front,last,shape⟩
    obtain ⟨_,cache,count⟩ := dir'
    dsimp only at shape
    subst shape
    rw [size_lastOff,getDirent_last,Option.getD_some]
    have entry : Entry last.name := partly.proper last (by rw [←file]; simp)
    have kept : ∀ d : DirInode, ((deCacheAdd d last.name last.inum deOff).deCache other).isSome ↔
        other = last.name ∨ (d.deCache other).isSome := by
      intro d
      rw [deCacheAdd_entry d entry]
      by_cases same : other = last.name
      · subst same
        simp
      · simp [same]
    unfold itrunc
    dsimp only
    rw [kept]
    by_cases same : other = last.name
    · exact Or.inl same
    · right
      have deleted : ∀ d : DirInode, (addToLog (deCacheDel d last.name) deOff last).deCache =
          (deCacheDel d last.name).deCache := by
        intro d
        unfold addToLog
        split <;> rfl
      rw [deleted,deCacheDel_eq]
      simpa only [update_of_ne same] using first
  · exact first

theorem cached_iff_full {dir : DirInode} (partly : PartlyCached dir) :
    fullCache dir ↔ ∀ name ∈ names dir.entries, (dir.deCache name).isSome := by
  rw [fullCache_iff]
  constructor
  · intro full name listed
    rw [partly.cached,full,take_length,Option.isSome_iff_ne_none]
    exact fun missing => position_none.mp missing listed
  · intro all
    refine le_antisymm partly.within (Nat.le_of_not_lt fun short => ?_)
    -- The first entry behind the cached ones is not cached.
    have shape : dir.entries = dir.entries.take dir.nDeCacheEntry ++ dir.entries[dir.nDeCacheEntry] ::
        dir.entries.drop (dir.nDeCacheEntry + 1) := by
      rw [←drop_eq_getElem_cons short,take_append_drop]
    have distinct := partly.distinct
    rw [shape] at distinct
    have apart := (apart_of_nodup distinct).1
    have cached := all _ (mem_map_of_mem (f:=Dirent.name) (getElem_mem short))
    rw [partly.cached,position_none.mpr apart] at cached
    cases cached

-- The entry in the last slot is found only when every slot is cached.
theorem lookup_full {dir : DirInode} (partly : PartlyCached dir) (short : name.length < dirsiz)
    (last : movesLast dir name = false) : fullCache (dirLookup dir name).1 := by
  have looked := dirLookup_lookedUp partly short
  unfold movesLast at last
  generalize dirLookup dir name = result at looked last
  obtain ⟨dir',found⟩ := result
  cases found with
  | none => exact looked.missed rfl
  | some data =>
    obtain ⟨front,old,covered,back,cache,rfl,_,rfl⟩ := looked.partly.covered (looked.cached data rfl)
    have far : ¬offsetOf front.length < dir.size - direntSize := by simpa using last
    rw [DirInode.size,← looked.entries] at far
    rw [fullCache_iff]
    simp only [offsetOf,direntSize,length_append,length_cons] at far ⊢
    omega

theorem dirRemoveEntry_full {dir : DirInode} (partly : PartlyCached dir) (short : name.length < dirsiz)
    (full : fullCache (dirLookup dir name).1) : fullCache (dirRemoveEntry dir name).1 := by
  obtain ⟨kept,fewer⟩ := partly.remove short
  have looked := dirLookup_lookedUp partly short
  rw [cached_iff_full kept]
  intro other listed
  have bound' : bound (dirRemoveEntry dir name).1.entries other ≠ none := fun missing => bound_none.mp missing listed
  rw [fewer] at bound'
  have apart : other ≠ name := by
    rintro rfl
    exact bound' (update_self ..)
  rw [update_of_ne apart] at bound'
  have before : other ∈ names dir.entries := by
    by_contra missing
    exact bound' (bound_none.mpr missing)
  rw [← looked.entries] at before
  have cached := (cached_iff_full looked.partly).mp full other before
  unfold dirRemoveEntry
  generalize dirLookup dir name = result at looked cached
  obtain ⟨dir',found⟩ := result
  cases found with
  | none => exact cached
  | some data => exact removeFound_keeps looked.partly cached apart

def finds (s : State) (dir : Nat) (name : CString) : Bool := (dirLookup (s.dirOf dir) name).2.isSome

def moves (s : State) (dir : Nat) (name : CString) : Nat := if movesLast (s.dirOf dir) name then 1 else 0

theorem moves_le (s : State) (dir : Nat) (name : CString) : moves s dir name ≤ 1 := by
  unfold moves
  split <;> omega

theorem removeEntry_count {result : Option Nat} (removed : removeEntry s dir name = (s',result)) :
    result.isSome = finds s dir name ∧
      s'.loghdr.length = s.loghdr.length + (if result.isSome then moves s dir name + 1 else 0) := by
  unfold removeEntry dirRemoveEntry at removed
  unfold finds moves
  cases looked : dirLookup (s.dirOf dir) name with
  | mk dir' found =>
    rw [looked] at removed
    cases found with
    | none =>
      cases removed
      exact ⟨rfl,rfl⟩
    | some data =>
      cases removed
      refine ⟨rfl,?_⟩
      unfold State.addToLoghdr State.setDir State.setInode
      simp only [length_append,length_singleton,Option.isSome_some,if_true]
      split <;> simp

theorem addEntry_count (s : State) (dir : Nat) (name : CString) (inum : Nat) :
    (addEntry s dir name inum).loghdr.length = s.loghdr.length + 1 := by
  simp [addEntry,State.addToLoghdr,State.setDir,State.setInode]

-- A removal leaves the directory cached as a whole, or it moved the last entry and logged that.
theorem removeEntry_full (partly : AllPartlyCached s) (dir : Nat) (short : name.length < dirsiz)
    (removed : removeEntry s dir name = (s',some target)) : fullCache (s'.dirOf dir) ∨ s'.loghdr.length = s.loghdr.length + 2 := by
  obtain ⟨_,count⟩ := removeEntry_count removed
  cases last : movesLast (s.dirOf dir) name with
  | true => exact Or.inr (by simpa [moves,last] using count)
  | false =>
    have kept := dirRemoveEntry_full (partly dir) short (lookup_full (partly dir) short last)
    refine Or.inl ?_
    unfold removeEntry at removed
    split at removed <;> rename_i gone <;> cases removed
    rw [gone] at kept
    exact (setDir_self s dir _).symm ▸ kept

theorem Tree.congr (tree : Tree s) (same : s'.inodes = s.inodes) : Tree s' := by
  obtain ⟨inodes,dlookup,loghdr⟩ := s
  obtain ⟨inodes',dlookup',loghdr'⟩ := s'
  cases same
  exact { tree with }

structure Renamed (s s' : State) (e : Edges Nat CString) : Prop where
  itype : ∀ inum, (s'.inodes inum).itype = (s.inodes inum).itype
  deleting : ∀ inum, (s'.inodes inum).deleting = (s.inodes inum).deleting
  edges : edges s' = e
  partly : AllPartlyCached s'
  dlookup : s'.dlookup = s.dlookup

theorem DirChanged.renamed (changed : DirChanged s s' dir e) : Renamed s s' e :=
  { changed with }

theorem Tree.of_edges (tree : Tree s) (changed : Renamed s s' e) (single : Single e rootIno)
    (live : ∀ {inum name target}, e inum name = some target →
      (s.inodes target).itype ≠ .free ∧ (s.inodes target).deleting = false) : Tree s' := by
  refine ⟨changed.partly,changed.edges ▸ single,fun named => ?_,?_⟩
  · rw [changed.itype,changed.deleting]
    exact live (changed.edges ▸ named)
  · rw [changed.itype,changed.deleting]
    exact tree.root

theorem unbind_some {name' : CString}
    (named : rebind (edges s) dir name none inum name' = some target) : edges s inum name' = some target := by
  by_cases here : inum = dir ∧ name' = name
  · obtain ⟨rfl,rfl⟩ := here
    rw [rebind_self] at named
    cases named
  · rwa [rebind_other here] at named

theorem Tree.remove (tree : Tree s)
    (changed : DirChanged s s' dir (rebind (edges s) dir name none)) : Tree s' :=
  tree.of_edges changed.renamed (tree.single.unbind dir name)
    fun named => tree.live (unbind_some named)

theorem edges_setInode {inode : Inode} (nothing : ∀ name,
    (if inode.itype = .dir then bound inode.dir.entries name else none) = none) :
    edges (s.setInode inum inode) = cut (edges s) inum := by
  funext other name
  unfold edges cut State.dirOf State.setInode
  by_cases same : other = inum
  · subst same
    simpa only [update_self] using nothing name
  · simp only [update_of_ne same]

theorem edges_idealloc (s : State) (inum : Nat) : edges (s.idealloc inum) = cut (edges s) inum :=
  edges_setInode (by simp)

theorem setInode_partly (partly : AllPartlyCached s) (inum : Nat) {inode : Inode}
    (here : PartlyCached inode.dir) : AllPartlyCached (s.setInode inum inode) := by
  intro other
  unfold State.dirOf State.setInode
  by_cases same : other = inum
  · subst same
    simpa only [update_self] using here
  · simp only [update_of_ne same]
    exact partly other

theorem emptyDir_partly : PartlyCached (loaded []) := loaded_partlyCached nodup_nil (by simp)

theorem Tree.idealloc {gone : Nat} (tree : Tree s) (unnamed : ∀ inum name, edges s inum name ≠ some gone)
    (other : gone ≠ rootIno) : Tree (s.idealloc gone) := by
  have inode : ∀ inum, inum ≠ gone → (s.idealloc gone).inodes inum = s.inodes inum := by
    intro inum apart
    simp [State.idealloc,State.setInode,apart]
  refine ⟨setInode_partly tree.partly gone emptyDir_partly,?_,fun {inum name target} named => ?_,?_⟩
  · rw [edges_idealloc]
    exact tree.single.cut gone
  · rw [edges_idealloc] at named
    have old := (cut_some named).2
    rw [inode target fun same => unnamed inum name (same ▸ old)]
    exact tree.live old
  · rw [inode rootIno other.symm]
    exact tree.root

-- An entry goes to a directory that is cached as a whole; a move of one that the header has no room for stops.
def CanAdd (s : State) (dir : Nat) : Prop := fullCache (s.dirOf dir) ∨ 3 ≤ s.loghdr.length

theorem removeTarget_missing (path : CString) (partly : AllPartlyCached s)
    (isDir : (s.inodes dir).itype = .dir) (short : name.length < dirsiz) (missing : edges s dir name = none) :
    Searched s (removeTarget s path dir name) ∧ (removeTarget s path dir name).dlookup = s.dlookup ∧
      fullCache ((removeTarget s path dir name).dirOf dir) := by
  obtain ⟨s',removed,searched,cache,full⟩ := removeEntry_missing partly isDir short missing
  unfold removeTarget
  rw [removed]
  exact ⟨searched,cache,full⟩

theorem removeTarget_found (path : CString) (partly : AllPartlyCached s)
    (isDir : (s.inodes dir).itype = .dir) (short : name.length < dirsiz) (named : edges s dir name = some target) :
    AllPartlyCached (removeTarget s path dir name) ∧
      edges (removeTarget s path dir name) = cut (rebind (edges s) dir name none) target ∧
      (((removeTarget s path dir name).inodes target).itype = .free ∧
        ((removeTarget s path dir name).inodes target).deleting = true) ∧
      (∀ inum, inum ≠ target → ((removeTarget s path dir name).inodes inum).itype = (s.inodes inum).itype ∧
        ((removeTarget s path dir name).inodes inum).deleting = (s.inodes inum).deleting) ∧
      (removeTarget s path dir name).dlookup = (s.dlookupDel path).dlookup ∧
      (dir ≠ target → CanAdd (removeTarget s path dir name) dir) := by
  obtain ⟨s',removed,changed⟩ := removeEntry_found partly isDir short named
  have full := removeEntry_full partly dir short removed
  unfold removeTarget
  rw [removed]
  refine ⟨setInode_partly (s:=s'.dlookupDel path) changed.partly target emptyDir_partly,?_,?_,fun inum apart => ?_,?_,
    fun apart => full.imp (fun whole => ?_) fun count => ?_⟩
  · rw [←changed.edges]
    exact edges_idealloc (s'.dlookupDel path) target
  · simp [State.idealloc,State.setInode,State.addToLoghdr]
  · rw [←changed.itype inum,←changed.deleting inum]
    simp [State.idealloc,State.setInode,State.addToLoghdr,State.dlookupDel,apart]
  · change (s'.dlookupDel path).dlookup = (s.dlookupDel path).dlookup
    unfold State.dlookupDel
    rw [changed.dlookup]
  · have inode : (((s'.dlookupDel path).idealloc target).addToLoghdr [.unlink]).dirOf dir = s'.dirOf dir := by
      simp [State.dirOf,State.idealloc,State.setInode,State.addToLoghdr,State.dlookupDel,apart]
    dsimp only
    rw [inode]
    exact whole
  · simp [State.idealloc,State.setInode,State.addToLoghdr,State.dlookupDel,count]

theorem Tree.unnamed (tree : Tree s)
    (named : edges s dir name = some target) (inum : Nat) (name' : CString) :
    rebind (edges s) dir name none inum name' ≠ some target := by
  intro again
  obtain ⟨rfl,rfl⟩ := tree.single.once (unbind_some again) named
  rw [rebind_self] at again
  cases again

theorem Tree.removeTarget (tree : Tree s) (path : CString)
    (isDir : (s.inodes dir).itype = .dir) (short : name.length < dirsiz) : Tree (removeTarget s path dir name) := by
  unfold Namespace.removeTarget
  cases named : edges s dir name with
  | none =>
    obtain ⟨s',removed,searched,_⟩ := removeEntry_missing tree.partly isDir short named
    rw [removed]
    exact tree.searched searched
  | some target =>
    obtain ⟨s',removed,changed⟩ := removeEntry_found tree.partly isDir short named
    rw [removed]
    have gone : Tree (s'.idealloc target) := (tree.remove changed).idealloc
      (fun inum name' again => tree.unnamed named inum name' (changed.edges ▸ again))
      fun same => tree.single.top dir name (same ▸ named)
    exact gone.congr rfl

theorem Tree.move {dir' : Nat} {name' : CString} (tree : Tree s) (named : edges s dir name = some target)
    (moved : Renamed s s' (rebind (rebind (edges s) dir name none) dir' name' (some target))) : Tree s' := by
  refine tree.of_edges moved ?_ fun {inum other found} again => ?_
  · exact (tree.single.unbind dir name).bind dir' name' (fun same => tree.single.top dir name (same ▸ named))
      (tree.unnamed named)
  · by_cases here : inum = dir' ∧ other = name'
    · obtain ⟨rfl,rfl⟩ := here
      rw [rebind_self] at again
      cases again
      exact tree.live named
    · rw [rebind_other here] at again
      exact tree.live (unbind_some again)

theorem icreate_inode (s : State) (inum : Nat) (type : IType) : (s.icreate inum type).inodes inum = ⟨type,false,loaded []⟩ := by
  simp [State.icreate,State.setInode]

theorem icreate_other {other : Nat} (apart : other ≠ inum) (type : IType) :
    (s.icreate inum type).inodes other = s.inodes other := by
  simp [State.icreate,State.setInode,apart]

theorem Tree.icreate (tree : Tree s) (free : (s.inodes inum).itype = .free) (type : IType) :
    Tree (s.icreate inum type) ∧ edges (s.icreate inum type) = edges s := by
  have same : edges (s.icreate inum type) = edges s := by
    unfold State.icreate
    rw [edges_setInode (by intro name; simp [loaded,bound])]
    unfold cut
    rw [update_eq_self_iff]
    funext name
    exact (edges_not_dir (by simp [free]) name).symm
  refine ⟨⟨setInode_partly tree.partly inum emptyDir_partly,same ▸ tree.single,fun {dir name target} named => ?_,?_⟩,same⟩
  · rw [same] at named
    have alive := tree.live named
    have apart : target ≠ inum := by
      rintro rfl
      exact alive.1 free
    rwa [icreate_other apart]
  · have apart : rootIno ≠ inum := by
      rintro rfl
      cases free.symm.trans tree.root.1
    rw [icreate_other apart]
    exact tree.root

theorem Tree.bind (tree : Tree s)
    (changed : DirChanged s s' dir (rebind (edges s) dir name (some target)))
    (fresh : ∀ inum name', edges s inum name' ≠ some target) (other : target ≠ rootIno)
    (alive : (s.inodes target).itype ≠ .free ∧ (s.inodes target).deleting = false) : Tree s' := by
  refine tree.of_edges changed.renamed
    (tree.single.bind dir name other fresh) fun {inum name' found} named => ?_
  by_cases here : inum = dir ∧ name' = name
  · obtain ⟨rfl,rfl⟩ := here
    rw [rebind_self] at named
    cases named
    exact alive
  · rw [rebind_other here] at named
    exact tree.live named

def cacheParent (s : State) (parentPath : CString) : Option (Nat × CString) → State
  | none => s
  | some (dir,_) => s.dlookupAllocAdd dir parentPath

theorem nameiparent_cases {path : CString} {result : Option (Nat × CString)} (partly : AllPartlyCached s)
    (short : ∀ name ∈ components path, name.length < dirsiz) (found : nameiparent s path = some (s',result)) :
    ∃ parentPath name, getParentPath path = some (parentPath,name) ∧
      ((∃ inum, s.dlookupFind parentPath = some inum ∧ s' = s ∧
          result = if (s.inodes inum).deleting then none else some (inum,name)) ∨
        (s.dlookupFind parentPath = none ∧ ∃ walked, Searched s walked ∧ walked.dlookup = s.dlookup ∧
          (∀ parent last, components path = parent ++ [last] → result = (walk (edges s) rootIno parent).bind fun dir =>
            if (s.inodes dir).itype = .dir then some (dir,last) else none) ∧
          (components path = [] → result = none) ∧
          s' = cacheParent walked parentPath result)) := by
  unfold nameiparent at found
  obtain ⟨⟨parentPath,name⟩,split,rest⟩ := Option.map_eq_some_iff.mp found
  refine ⟨parentPath,name,split,?_⟩
  dsimp only at rest
  cases hit : s.dlookupFind parentPath with
  | some inum =>
    rw [hit] at rest
    cases rest
    exact Or.inl ⟨inum,rfl,rfl,rfl⟩
  | none =>
    rw [hit] at rest
    refine Or.inr ⟨rfl,(namex s true path).1,?_⟩
    have shape : s' = cacheParent (namex s true path).1 parentPath result ∧ result = (namex s true path).2 := by
      cases step : namex s true path with
      | mk walked end' =>
        rw [step] at rest
        cases end' with
        | none => cases rest; exact ⟨rfl,rfl⟩
        | some pair => cases rest; exact ⟨rfl,rfl⟩
    obtain ⟨next,same⟩ := shape
    obtain ⟨searched,cache,_,walked⟩ := namexFrom_walk true partly (Nat.lt_succ_self path.length) short
    have ended := same.trans (walked rfl)
    refine ⟨searched,cache,fun parent last shape => ?_,fun nothing => ?_,next⟩
    · rw [ended,shape,List.getLast?_concat,List.dropLast_concat]
      rfl
    · rw [ended,nothing]
      rfl

theorem nameiparent_searched {path : CString} {result : Option (Nat × CString)} (partly : AllPartlyCached s)
    (short : ∀ name ∈ components path, name.length < dirsiz) (found : nameiparent s path = some (s',result)) :
    Searched s s' := by
  obtain ⟨parentPath,name,_,⟨inum,_,rfl,_⟩ | ⟨_,walked,searched,_,_,_,rfl⟩⟩ := nameiparent_cases partly short found
  · exact .refl partly
  · cases result with
    | none => exact searched
    | some pair => exact searched.withDlookup _

end Assise.Namespace
