import Assise.Paths
import Assise.Lib.Naming

-- The namespace of a LibFS process: its inodes with their directories, the path cache in front of them, and the calls
-- that change names. `none` is a failed assertion, a NULL pointer that is followed, a buffer read before it is set or
-- a cache used after it was freed.
namespace Assise.Namespace
open Directory Paths Lib.Naming

def rootIno : Nat := 1
def gMaxBlocksPerOperation : Nat := 4

inductive IType where
  | free
  | dir
  | file
deriving DecidableEq, Repr

inductive LogType where
  | inodeCreate
  | inodeUpdate
  | dirAdd
  | dirRename
  | unlink
deriving DecidableEq, Repr

structure Inode where
  itype : IType
  deleting : Bool
  dir : DirInode

-- `dlookup` lists the path cache, the entry added last first, as a bucket of the hash table does; entries are added
-- without a search. `loghdr` has the entries of the transaction under way.
structure State where
  inodes : Nat → Inode
  dlookup : List (CString × Nat)
  loghdr : List LogType

namespace State

def dirOf (s : State) (inum : Nat) : DirInode := (s.inodes inum).dir

def setInode (s : State) (inum : Nat) (inode : Inode) : State := {s with inodes := Function.update s.inodes inum inode}

def setDir (s : State) (inum : Nat) (dir : DirInode) : State := s.setInode inum {s.inodes inum with dir := dir}

def setType (s : State) (inum : Nat) (type : IType) : State := s.setInode inum {s.inodes inum with itype := type}

def dlookupFind (s : State) (path : CString) : Option Nat := (s.dlookup.find? (·.1 = path)).map Prod.snd

def dlookupAllocAdd (s : State) (inum : Nat) (path : CString) : State := {s with dlookup := (path,inum) :: s.dlookup}

def dlookupDel (s : State) (path : CString) : State := {s with dlookup := s.dlookup.eraseP (·.1 = path)}

def startLogTx (s : State) : State := {s with loghdr := []}

def addToLoghdr (s : State) (types : List LogType) : State := {s with loghdr := s.loghdr ++ types}

def icreate (s : State) (inum : Nat) (type : IType) : State := s.setInode inum ⟨type,false,loaded []⟩

def idealloc (s : State) (inum : Nat) : State := s.setInode inum ⟨.free,true,loaded []⟩

def iupdate (s : State) (inum : Nat) : Option State :=
  if (s.inodes inum).deleting then none else some (s.addToLoghdr [.inodeUpdate])

end State

-- The walk of `namex`. With `parent` it stops at the directory of the last name; the name comes back in a buffer.
def namexFrom (parent : Bool) : Nat → State → Nat → CString → CString → State × Option (Nat × CString)
  | 0,s,_,_,_ => (s,none)
  | fuel + 1,s,ip,name,path =>
    match getNextName path with
    | none => (s,if parent then none else some (ip,name))
    | some (name,rest) =>
      if (s.inodes ip).itype ≠ .dir then (s,none)
      else if parent ∧ rest = [] then (s,some (ip,name))
      else
        match dirLookup (s.dirOf ip) name with
        | (dir,none) => (s.setDir ip dir,none)
        | (dir,some found) => namexFrom parent fuel (s.setDir ip dir) found.inum name rest

def namex (s : State) (parent : Bool) (path : CString) : State × Option (Nat × CString) :=
  namexFrom parent (path.length + 1) s rootIno [] path

def namei (s : State) (path : CString) : State × Option Nat :=
  match s.dlookupFind path with
  | some inum => (s,if (s.inodes inum).deleting then none else some inum)
  | none =>
    match namex s false path with
    | (s,none) => (s,none)
    | (s,some (inum,_)) => (s.dlookupAllocAdd inum path,some inum)

-- A cached parent is returned whatever its type is.
def nameiparent (s : State) (path : CString) : Option (State × Option (Nat × CString)) :=
  (getParentPath path).map fun (parentPath,name) =>
    match s.dlookupFind parentPath with
    | some inum => (s,if (s.inodes inum).deleting then none else some (inum,name))
    | none =>
      match namex s true path with
      | (s,none) => (s,none)
      | (s,some (inum,name)) => (s.dlookupAllocAdd inum parentPath,some (inum,name))

def movesLast (dir : DirInode) (name : CString) : Bool :=
  (dirLookup dir name).2.any fun found => decide (found.offset < dir.size - direntSize)

def removeEntry (s : State) (dir : Nat) (name : CString) : State × Option Nat :=
  match dirRemoveEntry (s.dirOf dir) name with
  | (dir',none) => (s.setDir dir dir',none)
  | (dir',some ip) =>
    ((s.setDir dir dir').addToLoghdr ((if movesLast (s.dirOf dir) name then [.dirAdd] else []) ++ [.inodeUpdate]),some ip)

def changeEntry (s : State) (dir : Nat) (oldname newname : CString) : State × Bool :=
  match dirChangeEntry (s.dirOf dir) oldname newname with
  | (dir',false) => (s.setDir dir dir',false)
  | (dir',true) => ((s.setDir dir dir').addToLoghdr [.dirRename],true)

def addEntry (s : State) (dir : Nat) (name : CString) (inum : Nat) : State :=
  (s.setDir dir (dirAddEntry (s.dirOf dir) name inum)).addToLoghdr [.dirAdd]

-- The new inode, its links and the parent's `nlink` if it is a directory, and its entry. `inum` is
-- the number that `icreate` finds.
def createIn (s : State) (path : CString) (type : IType) (inum parent : Nat) (name : CString) : Option (State × Option Nat) :=
  let s := (s.icreate inum type).addToLoghdr [.inodeCreate]
  (if type = .dir then (s.addToLoghdr [.dirAdd]).iupdate parent else some s).map fun s =>
    let s := addEntry s parent name inum
    (if s.dlookupFind path = none then s.dlookupAllocAdd inum path else s,some inum)

-- An object that exists is given the type that is asked for.
def mlfsObjectCreate (s : State) (path : CString) (type : IType) (inum : Nat) : Option (State × Option Nat) :=
  let s := s.startLogTx
  match s.dlookupFind path with
  | some ip => ((s.setType ip type).iupdate ip).map fun s => (s,some ip)
  | none =>
    (nameiparent s path).bind fun (s,parent) =>
      match parent with
      | none => some (s,none)
      | some (parent,name) =>
        match dirLookup (s.dirOf parent) name with
        | (dir,some found) =>
          (((s.setDir parent dir).setType found.inum type).iupdate found.inum).map fun s => (s,some found.inum)
        | (dir,none) => createIn (s.setDir parent dir) path type inum parent name

-- `mlfs_posix_rmdir` is the same function. The flag tells success from `-ENOENT`.
def mlfsPosixUnlink (s : State) (path : CString) : Option (State × Bool) :=
  (nameiparent s.startLogTx path).map fun (s,parent) =>
    match parent with
    | none => (s,false)
    | some (dir,name) =>
      match removeEntry s dir name with
      | (s,none) => (s,false)
      | (s,some ip) => (((s.dlookupDel path).idealloc ip).addToLoghdr [.unlink],true)

-- The target goes first, before the source is looked up.
def removeTarget (s : State) (newpath : CString) (newDir : Nat) (newName : CString) : State :=
  match removeEntry s newDir newName with
  | (s,none) => s
  | (s,some ip) => ((s.dlookupDel newpath).idealloc ip).addToLoghdr [.unlink]

-- Then the source's entry is renamed, or moved to the other directory.
def moveSource (s : State) (newpath : CString) (oldDir : Nat) (oldName : CString) (newDir : Nat) (newName : CString) :
    Option (State × Bool) :=
  if newDir = oldDir then some (changeEntry s newDir oldName newName)
  else if (s.inodes oldDir).deleting then none
  else
    match removeEntry s oldDir oldName with
    | (s,none) => some (s,false)
    | (s,some ip) => some ((addEntry s newDir newName ip).dlookupAllocAdd ip newpath,true)

def mlfsPosixRename (s : State) (oldpath newpath : CString) : Option (State × Bool) :=
  (nameiparent s.startLogTx oldpath).bind fun (s,oldParent) =>
    (nameiparent s newpath).bind fun (s,newParent) =>
      match oldParent,newParent with
      | some (oldDir,oldName),some (newDir,newName) =>
        moveSource ((removeTarget s newpath newDir newName).dlookupDel oldpath) newpath oldDir oldName newDir newName
      | _,_ => none

inductive Call where
  | lookup (path : Path)
  | create (path : Path) (inum : Nat)
  | mkdir (path : Path) (inum : Nat)
  | unlink (path : Path)
  | rmdir (path : Path)
  | rename (oldpath newpath : Path)
deriving DecidableEq

def call (s : State) : Call → Option (State × Bool)
  | .lookup path => some ((namei s path.chars).1,(namei s path.chars).2.isSome)
  | .create path inum => (mlfsObjectCreate s path.chars .file inum).map fun (s,inode) => (s,inode.isSome)
  | .mkdir path inum => (mlfsObjectCreate s path.chars .dir inum).map fun (s,inode) => (s,inode.isSome)
  | .unlink path | .rmdir path => mlfsPosixUnlink s path.chars
  | .rename oldpath newpath => mlfsPosixRename s oldpath.chars newpath.chars

def step (s : State) (c : Call) : Option State :=
  (call s c).bind fun (next,_) => if next.loghdr.length ≤ gMaxBlocksPerOperation then some next else none

def edges (s : State) : Edges Nat CString := fun inum name =>
  if (s.inodes inum).itype = .dir then bound (s.dirOf inum).entries name else none

def AllPartlyCached (s : State) : Prop := ∀ inum, PartlyCached (s.dirOf inum)

structure Searched (s s' : State) : Prop where
  itype : ∀ inum, (s'.inodes inum).itype = (s.inodes inum).itype
  deleting : ∀ inum, (s'.inodes inum).deleting = (s.inodes inum).deleting
  entries : ∀ inum, (s'.dirOf inum).entries = (s.dirOf inum).entries
  partly : AllPartlyCached s'
  full : ∀ inum, fullCache (s.dirOf inum) → fullCache (s'.dirOf inum)
  loghdr : s'.loghdr = s.loghdr

variable {s s' : State} {inum : Nat} {name : CString}

theorem Searched.refl (partly : AllPartlyCached s) : Searched s s :=
  ⟨fun _ => rfl,fun _ => rfl,fun _ => rfl,partly,fun _ => id,rfl⟩

theorem Searched.trans {s'' : State} (first : Searched s s') (second : Searched s' s'') : Searched s s'' :=
  ⟨fun inum => (second.itype inum).trans (first.itype inum),fun inum => (second.deleting inum).trans (first.deleting inum),
    fun inum => (second.entries inum).trans (first.entries inum),second.partly,
    fun inum full => second.full inum (first.full inum full),second.loghdr.trans first.loghdr⟩

theorem Searched.edges (searched : Searched s s') : edges s' = edges s := by
  funext inum name
  unfold Namespace.edges
  rw [searched.itype,searched.entries]

theorem Searched.withDlookup (searched : Searched s s') (dlookup : List (CString × Nat)) :
    Searched s {s' with dlookup := dlookup} :=
  { searched with }

theorem setDir_self (s : State) (inum : Nat) (dir : DirInode) : (s.setDir inum dir).dirOf inum = dir := by
  simp [State.dirOf,State.setDir,State.setInode]

theorem setDir_other {other : Nat} (apart : other ≠ inum) (dir : DirInode) :
    (s.setDir inum dir).inodes other = s.inodes other := by
  simp [State.setDir,State.setInode,apart]

theorem setDir_itype (s : State) (inum : Nat) (dir : DirInode) (other : Nat) :
    ((s.setDir inum dir).inodes other).itype = (s.inodes other).itype := by
  by_cases same : other = inum
  · subst same
    simp [State.setDir,State.setInode]
  · rw [setDir_other same]

theorem setDir_deleting (s : State) (inum : Nat) (dir : DirInode) (other : Nat) :
    ((s.setDir inum dir).inodes other).deleting = (s.inodes other).deleting := by
  by_cases same : other = inum
  · subst same
    simp [State.setDir,State.setInode]
  · rw [setDir_other same]

theorem dirLookup_full {dir : DirInode} (full : fullCache dir) (name : CString) : (dirLookup dir name).1 = dir := by
  unfold dirLookup
  split
  · rfl
  · unfold fullCache at full
    dsimp only
    rw [if_pos full]

theorem dirLookup_searched (partly : AllPartlyCached s) (inum : Nat)
    (short : name.length < dirsiz) : Searched s (s.setDir inum (dirLookup (s.dirOf inum) name).1) := by
  have looked := dirLookup_lookedUp (partly inum) short
  have each : ∀ other (P : DirInode → Prop), (other = inum → P (dirLookup (s.dirOf inum) name).1) →
      (other ≠ inum → P (s.dirOf other)) → P ((s.setDir inum (dirLookup (s.dirOf inum) name).1).dirOf other) := by
    intro other P here there
    by_cases same : other = inum
    · subst same
      rw [setDir_self]
      exact here rfl
    · unfold State.dirOf
      rw [setDir_other same]
      exact there same
  refine ⟨setDir_itype s inum _,setDir_deleting s inum _,fun other => ?_,fun other => ?_,fun other full => ?_,rfl⟩
  · apply each other (fun dir => dir.entries = (s.dirOf other).entries)
    · rintro rfl
      exact looked.entries
    · exact fun _ => rfl
  · exact each other PartlyCached (fun _ => looked.partly) fun _ => partly other
  · apply each other fullCache
    · rintro rfl
      rw [dirLookup_full full]
      exact full
    · exact fun _ => full

theorem dirLookup_edge (partly : AllPartlyCached s) (dir : (s.inodes inum).itype = .dir) (short : name.length < dirsiz) :
    (dirLookup (s.dirOf inum) name).2.map DirentData.inum = edges s inum name := by
  rw [(dirLookup_lookedUp (partly inum) short).result,position_bound,edges,if_pos dir]

theorem edges_not_dir (other : (s.inodes inum).itype ≠ .dir) (name : CString) :
    edges s inum name = none :=
  if_neg other

-- Down to the object of the path, or to the directory of its last name.
theorem namexFrom_walk (parent : Bool) {fuel : Nat} {ip : Nat} {path : CString} (partly : AllPartlyCached s)
    (enough : path.length < fuel) (short : ∀ name ∈ components path, name.length < dirsiz) :
    Searched s (namexFrom parent fuel s ip name path).1 ∧
      (namexFrom parent fuel s ip name path).1.dlookup = s.dlookup ∧
      (parent = false → (namexFrom parent fuel s ip name path).2.map Prod.fst = walk (edges s) ip (components path)) ∧
      (parent = true → (namexFrom parent fuel s ip name path).2 = (components path).getLast?.bind fun last =>
        (walk (edges s) ip (components path).dropLast).bind fun dir =>
          if (s.inodes dir).itype = .dir then some (dir,last) else none) := by
  induction fuel generalizing s ip name path with
  | zero => cases enough
  | succ fuel ih =>
    unfold namexFrom
    cases next : getNextName path with
    | none =>
      rw [components_none next]
      refine ⟨.refl partly,rfl,?_,?_⟩ <;> rintro rfl <;> rfl
    | some pair =>
      obtain ⟨first,rest⟩ := pair
      have less := getNextName_shorter next
      have ended := rest_nil next
      rw [components_some next] at short ⊢
      have firstShort := short first (by simp)
      dsimp only
      split
      · rename_i other
        refine ⟨.refl partly,rfl,fun _ => ?_,fun _ => ?_⟩
        · rw [walk_cons,edges_not_dir other]
          rfl
        · cases components rest with
          | nil => simp [other]
          | cons second more => simp [walk_cons,edges_not_dir other]
      · rename_i dir
        have dir := not_not.mp dir
        split
        · rename_i last
          rw [ended.mp last.2]
          exact ⟨.refl partly,rfl,by simp [last.1],by simp [dir]⟩
        · rename_i goes
          have edge := dirLookup_edge partly dir firstShort
          have searched := dirLookup_searched partly ip firstShort
          have further : parent = true → (first :: components rest).dropLast = first :: (components rest).dropLast ∧
              (first :: components rest).getLast? = (components rest).getLast? := by
            rintro rfl
            cases more : components rest with
            | nil => exact absurd ⟨rfl,ended.mpr more⟩ goes
            | cons second more => simp
          cases looked : dirLookup (s.dirOf ip) first with
          | mk dir' found =>
            rw [looked] at edge searched
            cases found with
            | none =>
              refine ⟨searched,rfl,fun _ => ?_,fun up => ?_⟩
              · rw [walk_cons,←edge]
                rfl
              · rw [(further up).1,walk_cons,←edge]
                simp
            | some found =>
              obtain ⟨later,cache,down,upper⟩ := @ih _ first found.inum rest searched.partly (by omega)
                fun name member => short name (List.mem_cons_of_mem _ member)
              simp only [searched.edges,searched.itype] at down upper
              refine ⟨searched.trans later,cache,fun no => ?_,fun up => ?_⟩
              · rw [walk_cons,←edge]
                exact down no
              · rw [(further up).1,(further up).2,walk_cons,←edge]
                exact upper up

theorem namexFrom_agree {fuel fuel' ip : Nat} {s : State} {name name' path parentPath last : CString} (enough : path.length < fuel)
    (enough' : parentPath.length < fuel') (split : components path = components parentPath ++ [last]) :
    namexFrom true fuel s ip name path =
      match namexFrom false fuel' s ip name' parentPath with
      | (s',found) => (s',found.bind fun (dir,_) => if (s'.inodes dir).itype = .dir then some (dir,last) else none) := by
  induction fuel generalizing fuel' s ip name name' path parentPath with
  | zero => cases enough
  | succ fuel ih =>
    cases fuel' with
    | zero => cases enough'
    | succ fuel' =>
      unfold namexFrom
      cases next : getNextName path with
      | none =>
        rw [components_none next] at split
        simp at split
      | some pair =>
        obtain ⟨first,rest⟩ := pair
        have less := getNextName_shorter next
        have ended := rest_nil next
        rw [components_some next] at split
        cases next' : getNextName parentPath with
        | none =>
          rw [components_none next'] at split
          obtain ⟨rfl,nothing⟩ := List.cons.inj split
          dsimp only
          by_cases dir : (s.inodes ip).itype = .dir
          · simp [dir,ended.mpr nothing]
          · simp [dir]
        | some pair' =>
          obtain ⟨first',rest'⟩ := pair'
          have less' := getNextName_shorter next'
          rw [components_some next'] at split
          obtain ⟨rfl,more⟩ := List.cons.inj split
          have goes : rest ≠ [] := fun none => by
            rw [ended.mp none] at more
            simp at more
          dsimp only
          by_cases dir : (s.inodes ip).itype = .dir
          · simp only [dir,goes,ne_eq,not_true_eq_false,if_false,and_false,Bool.false_eq_true,false_and]
            cases dirLookup (s.dirOf ip) first with
            | mk dir' found =>
              cases found with
              | none => rfl
              | some found => exact ih (by omega) (by omega) more
          · simp [dir]

theorem parent_path_right_iff (path : CString) (absolute : path.head? = some slash) (named : components path ≠ [])
    (short : ∀ name ∈ components path, name.length < dirsiz) :
    (∃ parentPath name, getParentPath path = some (parentPath,name) ∧ components path = components parentPath ++ [name] ∧
      ∀ s, namex s true path =
        match namex s false parentPath with
        | (s',found) => (s',found.bind fun (dir,_) => if (s'.inodes dir).itype = .dir then some (dir,name) else none)) ↔
    path.getLast? = some slash ∨ ∃ c ∈ (components path).getLast named, c ≠ digitZero := by
  rw [← splits_iff absolute named short]
  constructor
  · rintro ⟨parentPath,name,found,split,_⟩
    exact ⟨(parentPath,name),found,split⟩
  · rintro ⟨⟨parentPath,name⟩,found,split⟩
    exact ⟨parentPath,name,found,split,fun s => namexFrom_agree (Nat.lt_succ_self _) (Nat.lt_succ_self _) split⟩

-- "//a/b0//"
theorem parent_path_right_slashes : ∃ parentPath name, getParentPath [47,47,97,47,98,48,47,47] = some (parentPath,name) ∧
    components [47,47,97,47,98,48,47,47] = components parentPath ++ [name] := by
  obtain ⟨parentPath,name,found,split,_⟩ := (parent_path_right_iff [47,47,97,47,98,48,47,47] rfl (by decide) (by decide)).mpr (.inl rfl)
  exact ⟨parentPath,name,found,split⟩

-- The parent of "/a/0" is taken to be the root and its name "a"; "/0" has none.
theorem zeros_taken_for_end : getParentPath [47,97,47,48] = some ([],[97]) ∧ components [47,97,47,48] = [[97],[48]] ∧
    getParentPath [47,48] = none := by decide

end Assise.Namespace
