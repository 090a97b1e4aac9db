import Assise.NamespaceTree

-- The path cache against the walk: when `namei` returns what `namex` finds.
namespace Assise.Namespace
open Directory Paths Lib.Naming Lib.Runs List Option

structure Coherent (s : State) : Prop extends Tree s where
  keys : (s.dlookup.map Prod.fst).Nodup
  right : ∀ e ∈ s.dlookup, walk (edges s) rootIno (components e.1) = some e.2

variable {inum dir : Nat} {path last name : CString} {s s' : State} {parent : List CString} {flag : Bool} {type : IType}
    {result : Option Nat}

theorem dlookupFind_mem (hit : s.dlookupFind path = some inum) :
    (path,inum) ∈ s.dlookup := by
  obtain ⟨e,found,rfl⟩ := map_eq_some_iff.mp hit
  have key : e.1 = path := by simpa using find?_some found
  subst key
  exact mem_of_find?_eq_some found

theorem dlookupFind_none : s.dlookupFind path = none ↔ path ∉ s.dlookup.map Prod.fst := by
  unfold State.dlookupFind
  rw [Option.map_eq_none_iff,find?_eq_none]
  constructor
  · intro other listed
    obtain ⟨e,member,same⟩ := mem_map.mp listed
    exact other e member (by simpa using same)
  · intro missing e member same
    exact missing (mem_map.mpr ⟨e,member,by simpa using same⟩)

theorem dlookupFind_of_mem (keys : (s.dlookup.map Prod.fst).Nodup)
    (member : (path,inum) ∈ s.dlookup) : s.dlookupFind path = some inum := by
  cases hit : s.dlookupFind path with
  | none => exact absurd (mem_map_of_mem (f:=Prod.fst) member) (dlookupFind_none.mp hit)
  | some other =>
    have same := inj_on_of_nodup_map keys (dlookupFind_mem hit) member rfl
    cases same
    rfl

section
variable (coherent : Coherent s)
include coherent

theorem Coherent.cached_live
    (hit : s.dlookupFind path = some inum) :
    walk (edges s) rootIno (components path) = some inum ∧ (s.inodes inum).deleting = false := by
  have walked := coherent.right _ (dlookupFind_mem hit)
  exact ⟨walked,(coherent.walk_live walked).2⟩

theorem Coherent.congr (same : s'.inodes = s.inodes)
    (cache : s'.dlookup = s.dlookup) : Coherent s' := by
  have kept : edges s' = edges s := by
    unfold edges State.dirOf
    rw [same]
  exact ⟨coherent.toTree.congr same,cache ▸ coherent.keys,by rw [cache,kept]; exact coherent.right⟩

theorem Coherent.searched (searched : Searched s s')
    (cache : s'.dlookup = s.dlookup) : Coherent s' :=
  ⟨coherent.toTree.searched searched,cache ▸ coherent.keys,by rw [cache,searched.edges]; exact coherent.right⟩

theorem Coherent.remember
    (fresh : path ∉ s.dlookup.map Prod.fst) (walked : walk (edges s) rootIno (components path) = some inum) :
    Coherent (s.dlookupAllocAdd inum path) := by
  refine ⟨coherent.toTree.congr rfl,nodup_cons.mpr ⟨fresh,coherent.keys⟩,fun e member => ?_⟩
  rcases mem_cons.mp member with rfl | old
  · exact walked
  · exact coherent.right e old

theorem Coherent.forget (path : CString) : Coherent (s.dlookupDel path) :=
  ⟨coherent.toTree.congr rfl,coherent.keys.sublist (eraseP_sublist.map _),
    fun e member => coherent.right e (mem_of_mem_eraseP member)⟩

end

theorem dlookupDel_other (keys : (s.dlookup.map Prod.fst).Nodup) {e : CString × Nat}
    (member : e ∈ (s.dlookupDel path).dlookup) : e ∈ s.dlookup ∧ e.1 ≠ path := by
  refine ⟨mem_of_mem_eraseP member,?_⟩
  rintro rfl
  have old := mem_of_mem_eraseP member
  obtain ⟨front,back,shape⟩ := append_of_mem old
  have apart := keys
  rw [shape,map_append,map_cons] at apart
  obtain ⟨_,second,disjoint⟩ := nodup_append.mp apart
  have dropped : (s.dlookupDel e.1).dlookup = front ++ back := by
    unfold State.dlookupDel
    dsimp only
    rw [shape,eraseP_append_right,eraseP_cons_of_pos (by simp)]
    intro other listed
    simpa using disjoint _ (mem_map_of_mem (f:=Prod.fst) listed) _ mem_cons_self
  rw [dropped] at member
  rcases mem_append.mp member with early | late
  · exact disjoint _ (mem_map_of_mem (f:=Prod.fst) early) _ mem_cons_self rfl
  · exact (nodup_cons.mp second).1 (mem_map_of_mem (f:=Prod.fst) late)

theorem namex_walk (partly : AllPartlyCached s) (path : Path) :
    Searched s (namex s false path.chars).1 ∧ (namex s false path.chars).1.dlookup = s.dlookup ∧
      (namex s false path.chars).2.map Prod.fst = walk (edges s) rootIno path.names := by
  obtain ⟨searched,cache,walked,_⟩ := namexFrom_walk false partly (Nat.lt_succ_self _) path.short
  exact ⟨searched,cache,walked rfl⟩

theorem Coherent.namei_eq (coherent : Coherent s) (path : Path) :
    (namei s path.chars).2 = (namex s false path.chars).2.map Prod.fst := by
  obtain ⟨_,_,walked⟩ := namex_walk coherent.partly path
  unfold namei
  cases hit : s.dlookupFind path.chars with
  | some inum =>
    obtain ⟨cached,alive⟩ := coherent.cached_live hit
    simp only [alive]
    rw [walked]
    exact cached.symm
  | none =>
    cases namex s false path.chars with
    | mk s' result => cases result <;> rfl

theorem Coherent.namei (coherent : Coherent s) (path : Path) : Coherent (namei s path.chars).1 := by
  obtain ⟨searched,cache,walked⟩ := namex_walk coherent.partly path
  unfold Namespace.namei
  cases hit : s.dlookupFind path.chars with
  | some inum => exact coherent
  | none =>
    cases found : namex s false path.chars with
    | mk s' result =>
      rw [found] at searched cache walked
      have kept := coherent.searched searched cache
      cases result with
      | none => exact kept
      | some pair =>
        refine kept.remember ?_ ?_
        · rw [cache]
          exact dlookupFind_none.mp hit
        · rw [searched.edges]
          exact walked.symm

def ParentIsDir (s : State) (path : CString) : Prop :=
  ∀ pair ∈ getParentPath path, ∀ inum ∈ s.dlookupFind pair.1, (s.inodes inum).itype = .dir

def parentAt (s : State) (parent : List CString) (last : CString) : Option (Nat × CString) :=
  (walk (edges s) rootIno parent).bind fun dir => if (s.inodes dir).itype = .dir then some (dir,last) else none

theorem parentAt_some
    (found : parentAt s parent last = some (dir,name)) :
    walk (edges s) rootIno parent = some dir ∧ (s.inodes dir).itype = .dir ∧ name = last := by
  obtain ⟨dir',walked,rest⟩ := bind_eq_some_iff.mp found
  obtain ⟨isDir,same⟩ := ite_none_right_eq_some.mp rest
  cases same
  exact ⟨walked,isDir,rfl⟩

theorem nameiparent_short (partly : AllPartlyCached s)
    (short : ∀ name ∈ components path, name.length < dirsiz) (found : nameiparent s path = some (s',some (dir,name))) :
    name.length < dirsiz := by
  obtain ⟨parentPath,name',split,⟨inum,_,_,result⟩ | ⟨_,walked,_,_,results,empty,_⟩⟩ := nameiparent_cases partly short found
  · obtain ⟨rest,shape⟩ := getParentPath_components split
    obtain ⟨_,same⟩ := ite_none_left_eq_some.mp result.symm
    cases same
    exact short name (by rw [shape]; simp)
  · rcases eq_nil_or_concat' (components path) with nothing | ⟨parent,last,shape⟩
    · cases empty nothing
    · obtain ⟨_,_,rfl⟩ := parentAt_some (results parent last shape).symm
      exact short name (by rw [shape]; simp)

theorem Coherent.nameiparent (coherent : Coherent s) {path : Path} (splits : Splits path.chars)
    (isDir : ParentIsDir s path.chars) (names : path.names = parent ++ [last]) :
    ∃ s', nameiparent s path.chars = some (s',parentAt s parent last) ∧ Coherent s' ∧ Searched s s' ∧
      ∀ e ∈ s'.dlookup, e ∈ s.dlookup ∨ (components e.1 = parent ∧ (s.inodes e.2).itype = .dir) := by
  obtain ⟨⟨parentPath,name⟩,split,shape⟩ := splits
  have returns : ∃ s' result, Namespace.nameiparent s path.chars = some (s',result) := by
    unfold Namespace.nameiparent
    rw [split]
    exact ⟨_,_,rfl⟩
  obtain ⟨s',result,found⟩ := returns
  obtain ⟨rfl,same⟩ := append_inj' (names.symm.trans shape) rfl
  cases same
  obtain ⟨parentPath',name',split',rest⟩ := nameiparent_cases coherent.partly path.short found
  cases split.symm.trans split'
  rcases rest with ⟨inum,hit,rfl,rfl⟩ | ⟨miss,walked,searched,cache,results,_,rfl⟩
  · obtain ⟨there,alive⟩ := coherent.cached_live hit
    have dir := isDir (parentPath,name) split inum hit
    refine ⟨s',?_,coherent,.refl coherent.partly,fun e member => Or.inl member⟩
    rw [found,parentAt,there,alive]
    simp [dir]
  · have result' : result = parentAt s (components parentPath) name := results _ _ names
    subst result'
    have kept := coherent.searched searched cache
    refine ⟨_,found,?_⟩
    cases there : parentAt s (components parentPath) name with
    | none => exact ⟨kept,searched,fun e member => Or.inl (cache ▸ member)⟩
    | some pair =>
      obtain ⟨dir,last⟩ := pair
      obtain ⟨walkedTo,isDir',_⟩ := parentAt_some there
      refine ⟨kept.remember ?_ ?_,searched.withDlookup _,fun e member => ?_⟩
      · rw [cache]
        exact dlookupFind_none.mp miss
      · rw [searched.edges]
        exact walkedTo
      · rcases mem_cons.mp member with rfl | old
        · exact Or.inr ⟨rfl,isDir'⟩
        · exact Or.inl (cache ▸ old)

def OnlyAs (s : State) (path : CString) : Prop := ∀ e ∈ s.dlookup, components path <+: components e.1 → e.1 = path

theorem Coherent.removeTarget (coherent : Coherent s) (names : components path = parent ++ [name]) (walked : walk (edges s) rootIno parent = some dir)
    (isDir : (s.inodes dir).itype = .dir) (short : name.length < dirsiz) (only : OnlyAs s path) :
    Coherent (removeTarget s path dir name) ∧ edges (removeTarget s path dir name) dir name = none ∧
      (∀ others, ¬parent ++ [name] <+: others →
        walk (edges (removeTarget s path dir name)) rootIno others = walk (edges s) rootIno others) ∧
      (∀ inum, walk (edges s) rootIno (parent ++ [name]) ≠ some inum →
        ((removeTarget s path dir name).inodes inum).itype = (s.inodes inum).itype ∧
        ((removeTarget s path dir name).inodes inum).deleting = (s.inodes inum).deleting) ∧
      CanAdd (removeTarget s path dir name) dir ∧
      ∀ e ∈ (removeTarget s path dir name).dlookup, e ∈ s.dlookup := by
  have tree := coherent.toTree.removeTarget path isDir short
  cases named : edges s dir name with
  | none =>
    obtain ⟨searched,cache,whole⟩ := removeTarget_missing path coherent.partly isDir short named
    exact ⟨coherent.searched searched cache,by rw [searched.edges,named],fun others _ => by rw [searched.edges],
      fun inum _ => ⟨searched.itype inum,searched.deleting inum⟩,.inl whole,fun e member => cache ▸ member⟩
  | some target =>
    obtain ⟨_,same,_,inodes,cache,full⟩ := removeTarget_found path coherent.partly isDir short named
    have apart : dir ≠ target := by
      rintro rfl
      have longer := walk_snoc walked named
      have equal := congrArg List.length (coherent.single.walk_unique walked longer)
      simp at equal
    have lost := coherent.single.lost named
    have unaffected : ∀ others, ¬parent ++ [name] <+: others →
        walk (cut (rebind (edges s) dir name none) target) rootIno others = walk (edges s) rootIno others := by
      intro others avoids
      rw [walk_cut lost,coherent.single.walk_rebind walked avoids]
    have dropped : ∀ e ∈ (Namespace.removeTarget s path dir name).dlookup, e ∈ s.dlookup ∧ e.1 ≠ path := by
      intro e member
      rw [cache] at member
      exact dlookupDel_other coherent.keys member
    refine ⟨⟨tree,?_,fun e member => ?_⟩,?_,fun others avoids => ?_,fun inum other => ?_,
      full apart,fun e member => (dropped e member).1⟩
    · rw [cache]
      exact coherent.keys.sublist (eraseP_sublist.map _)
    · obtain ⟨old,other⟩ := dropped e member
      rw [same,unaffected]
      · exact coherent.right e old
      · rw [←names]
        exact fun through => other (only e old through)
    · rw [same]
      unfold cut
      rw [Function.update_of_ne apart,rebind_self]
    · rw [same]
      exact unaffected others avoids
    · refine inodes inum ?_
      rintro rfl
      exact other (walk_snoc walked named)

theorem Path.short_last {path : Path} (names : path.names = parent ++ [last]) :
    last.length < dirsiz :=
  path.short last (by rw [←Path.names,names]; simp)

theorem split_of_splits {path : Path} (splits : Splits path.chars) : ∃ parent last, path.names = parent ++ [last] := by
  obtain ⟨pair,_,names⟩ := splits
  exact ⟨_,_,names⟩

theorem Coherent.unlink (coherent : Coherent s) {path : Path} (splits : Splits path.chars)
    (isDir : ParentIsDir s path.chars) (only : OnlyAs s path.chars)
    (done : mlfsPosixUnlink s path.chars = some (s',flag)) : Coherent s' := by
  obtain ⟨parent,last,names⟩ := split_of_splits splits
  have start : Coherent s.startLogTx := coherent.congr rfl rfl
  obtain ⟨found,returned,kept,searched,cached⟩ := start.nameiparent splits isDir names
  unfold mlfsPosixUnlink at done
  rw [returned,map_some] at done
  cases there : parentAt s.startLogTx parent last with
  | none =>
    rw [there] at done
    cases done
    exact kept
  | some pair =>
    obtain ⟨dir,name⟩ := pair
    obtain ⟨walked,dirType,rfl⟩ := parentAt_some there
    rw [there] at done
    have only' : OnlyAs found path.chars := by
      intro e member through
      rcases cached e member with old | ⟨shorter,_⟩
      · exact only e old through
      · have long := through.length_le
        rw [shorter,←Path.names,names] at long
        simp at long
    obtain ⟨removed,_⟩ := kept.removeTarget names (searched.edges ▸ walked) ((searched.itype dir).trans dirType)
      (Path.short_last names) only'
    unfold Namespace.removeTarget at removed
    dsimp only at done
    cases gone : removeEntry found dir name with
    | mk after target =>
      rw [gone] at done removed
      cases target with
      | none => cases done; exact removed
      | some ip => cases done; exact removed

theorem setType_same (same : (s.inodes inum).itype = type) :
    (s.setType inum type).inodes = s.inodes := by
  unfold State.setType State.setInode
  dsimp only
  rw [Function.update_eq_self_iff]
  rw [←same]

theorem iupdate_some (done : s.iupdate inum = some s') :
    s'.inodes = s.inodes ∧ s'.dlookup = s.dlookup := by
  unfold State.iupdate at done
  obtain ⟨_,same⟩ := ite_none_left_eq_some.mp done
  cases same
  exact ⟨rfl,rfl⟩

theorem createIn_some {parent : Nat}
    (done : createIn s path type inum parent name = some (s',result)) :
    ∃ made, made.inodes = (s.icreate inum type).inodes ∧ made.dlookup = s.dlookup ∧
      s' = if (addEntry made parent name inum).dlookupFind path = none
        then (addEntry made parent name inum).dlookupAllocAdd inum path else addEntry made parent name inum := by
  unfold createIn at done
  obtain ⟨made,inode,rest⟩ := map_eq_some_iff.mp done
  cases rest
  refine ⟨made,?_,?_,rfl⟩
  · split at inode
    · exact (iupdate_some inode).1
    · cases inode; rfl
  · split at inode
    · exact (iupdate_some inode).2
    · cases inode; rfl

theorem Tree.createIn (tree : Tree s) {path : CString} (isDir : (s.inodes dir).itype = .dir)
    (full : fullCache (s.dirOf dir)) (entry : Entry name) (missing : edges s dir name = none) (kind : type ≠ .free)
    (free : (s.inodes inum).itype = .free) (done : createIn s path type inum dir name = some (s',result)) :
    ∃ after, Tree after ∧ edges after = rebind (edges s) dir name (some inum) ∧ after.dlookup = s.dlookup ∧
      (∀ other, other ≠ inum → (after.inodes other).itype = (s.inodes other).itype) ∧
      s' = if after.dlookupFind path = none then after.dlookupAllocAdd inum path else after := by
  obtain ⟨made,inodes,cache,rfl⟩ := createIn_some done
  obtain ⟨grown,same⟩ := tree.icreate free type
  have tree' : Tree made := grown.congr inodes
  have same' : edges made = edges s := by
    rw [←same]
    unfold edges State.dirOf
    rw [inodes]
  have apart : dir ≠ inum := by
    rintro rfl
    cases isDir.symm.trans free
  have madeDir : made.inodes dir = s.inodes dir := by rw [inodes,icreate_other apart]
  have madeNew : made.inodes inum = ⟨type,false,loaded []⟩ := by rw [inodes,icreate_inode]
  have changed := addEntry_changed tree'.partly dir (by rw [madeDir,isDir])
    (by unfold State.dirOf; rw [madeDir]; exact full) entry (by rw [same',missing]) inum
  have bound := tree'.bind changed
    (fun other name' named => (tree.live (same' ▸ named)).1 free)
    (by rintro rfl; cases free.symm.trans tree.root.1)
    (by rw [madeNew]; exact ⟨kind,rfl⟩)
  refine ⟨_,bound,by rw [changed.edges,same'],changed.dlookup.trans cache,fun other new => ?_,rfl⟩
  rw [changed.itype,inodes,icreate_other new]

theorem Coherent.createIn (coherent : Coherent s) {path : Path} (names : path.names = parent ++ [name])
    (walked : walk (edges s) rootIno parent = some dir) (isDir : (s.inodes dir).itype = .dir)
    (full : fullCache (s.dirOf dir)) (entry : Entry name) (missing : edges s dir name = none) (kind : type ≠ .free)
    (free : (s.inodes inum).itype = .free) (done : createIn s path.chars type inum dir name = some (s',result)) :
    Coherent s' := by
  obtain ⟨after,tree,bound,cache,_,rfl⟩ := coherent.toTree.createIn isDir full entry missing kind free done
  -- A walk that succeeds does not need the name that was missing.
  have walks : ∀ others target, walk (edges s) rootIno others = some target →
      walk (edges after) rootIno others = some target := by
    intro others target there
    rw [bound]
    exact walk_bind there missing
  have kept : Coherent after :=
    ⟨tree,cache ▸ coherent.keys,fun e member => walks _ _ (coherent.right e (cache ▸ member))⟩
  split
  · rename_i uncached
    refine kept.remember (dlookupFind_none.mp uncached) ?_
    have names' : components path.chars = parent ++ [name] := names
    rw [names']
    refine walk_snoc (walks parent dir walked) ?_
    rw [bound,rebind_self]
  · exact kept

def ObjectHas (s : State) (path : CString) (type : IType) : Prop :=
  ∀ inum ∈ walk (edges s) rootIno (components path), (s.inodes inum).itype = type

def LastIsEntry (path : CString) : Prop := ∀ name ∈ (components path).getLast?, Entry name

theorem Coherent.create (coherent : Coherent s) {path : Path} (kind : type ≠ .free) (splits : Splits path.chars) (isDir : ParentIsDir s path.chars)
    (entry : LastIsEntry path.chars) (has : ObjectHas s path.chars type) (free : (s.inodes inum).itype = .free)
    (done : mlfsObjectCreate s path.chars type inum = some (s',result)) : Coherent s' := by
  obtain ⟨parent,last,names⟩ := split_of_splits splits
  have start : Coherent s.startLogTx := coherent.congr rfl rfl
  unfold mlfsObjectCreate at done
  dsimp only at done
  cases hit : s.startLogTx.dlookupFind path.chars with
  | some ip =>
    rw [hit] at done
    obtain ⟨after,updated,rest⟩ := map_eq_some_iff.mp done
    cases rest
    obtain ⟨inodes,cache⟩ := iupdate_some updated
    have sameType : (s.startLogTx.inodes ip).itype = type := has ip (start.cached_live hit).1
    exact start.congr (inodes.trans (setType_same sameType)) cache
  | none =>
    rw [hit] at done
    obtain ⟨found,returned,kept,searched,_⟩ := start.nameiparent splits isDir names
    rw [returned,bind_some] at done
    cases there : parentAt s.startLogTx parent last with
    | none =>
      rw [there] at done
      cases done
      exact kept
    | some pair =>
      obtain ⟨dir,name⟩ := pair
      obtain ⟨walked,dirType,rfl⟩ := parentAt_some there
      rw [there] at done
      have dirType' : (found.inodes dir).itype = .dir := (searched.itype dir).trans dirType
      have walked' : walk (edges found) rootIno parent = some dir := searched.edges ▸ walked
      have short := Path.short_last names
      have edge := dirLookup_edge kept.partly dirType' short
      have searched' := dirLookup_searched kept.partly dir short
      have missed := (dirLookup_lookedUp (kept.partly dir) short).missed
      dsimp only at done
      cases looked : dirLookup (found.dirOf dir) name with
      | mk dir' data =>
        rw [looked] at done edge searched' missed
        have kept' := kept.searched searched' rfl
        cases data with
        | some data =>
          obtain ⟨after,updated,rest⟩ := map_eq_some_iff.mp done
          cases rest
          obtain ⟨inodes,cache⟩ := iupdate_some updated
          have reached : walk (edges s) rootIno (components path.chars) = some data.inum := by
            have names' : components path.chars = parent ++ [name] := names
            rw [names']
            refine walk_snoc walked ?_
            rw [searched.edges] at edge
            exact edge.symm
          have sameType : ((found.setDir dir dir').inodes data.inum).itype = type := by
            rw [setDir_itype,searched.itype]
            exact has data.inum reached
          exact kept'.congr (inodes.trans (setType_same sameType)) cache
        | none =>
          refine kept'.createIn names ?_ ?_ ?_ ?_ ?_ kind ?_ done
          · rw [searched'.edges]
            exact walked'
          · rw [setDir_itype]
            exact dirType'
          · rw [setDir_self]
            exact missed rfl
          · exact entry name (by rw [←Path.names,names]; simp)
          · rw [searched'.edges]
            exact edge.symm
          · rw [setDir_itype,searched.itype]
            exact free

theorem Coherent.move {dir' target : Nat} {name' : CString}
    (coherent : Coherent s) (walked : walk (edges s) rootIno parent = some dir) (named : edges s dir name = some target)
    (avoided : ∀ e ∈ s.dlookup, ¬parent ++ [name] <+: components e.1)
    (open' : rebind (edges s) dir name none dir' name' = none)
    (moved : Renamed s s' (rebind (rebind (edges s) dir name none) dir' name' (some target))) :
    Coherent s' ∧ ∀ others reached, ¬parent ++ [name] <+: others → walk (edges s) rootIno others = some reached →
      walk (edges s') rootIno others = some reached := by
  have walks : ∀ others reached, ¬parent ++ [name] <+: others → walk (edges s) rootIno others = some reached →
      walk (edges s') rootIno others = some reached := by
    intro others reached apart there
    rw [moved.edges]
    refine walk_bind ?_ open'
    rw [coherent.single.walk_rebind walked apart,there]
  refine ⟨⟨coherent.toTree.move named moved,moved.dlookup ▸ coherent.keys,fun e member => ?_⟩,walks⟩
  rw [moved.dlookup] at member
  exact walks _ _ (avoided e member) (coherent.right e member)

theorem moveSource_cases (partly : AllPartlyCached s) {newpath oldName newName : CString} {oldDir newDir : Nat}
    (oldIsDir : (s.inodes oldDir).itype = .dir) (newIsDir : (s.inodes newDir).itype = .dir)
    (oldShort : oldName.length < dirsiz) (entry : Entry newName) (missing : edges s newDir newName = none)
    (full : newDir ≠ oldDir → CanAdd s newDir) (few : s'.loghdr.length ≤ gMaxBlocksPerOperation)
    (done : moveSource s newpath oldDir oldName newDir newName = some (s',flag)) :
    (Searched s s' ∧ s'.dlookup = s.dlookup) ∨
    ∃ target after, edges s oldDir oldName = some target ∧
      rebind (edges s) oldDir oldName none newDir newName = none ∧
      Renamed s after (rebind (rebind (edges s) oldDir oldName none) newDir newName (some target)) ∧
      (newDir = oldDir ∧ s' = after ∨ newDir ≠ oldDir ∧ s' = after.dlookupAllocAdd target newpath) := by
  unfold moveSource at done
  split at done
  · rename_i same
    subst same
    cases named : edges s newDir oldName with
    | none =>
      obtain ⟨after,changed,searched,cache⟩ := changeEntry_missing partly newIsDir newName oldShort named
      rw [changed] at done
      cases done
      exact Or.inl ⟨searched,cache⟩
    | some target =>
      obtain ⟨after,changed,moved⟩ := changeEntry_found partly newIsDir oldShort entry missing named
      rw [changed] at done
      cases done
      refine Or.inr ⟨target,_,rfl,?_,moved.renamed,Or.inl ⟨rfl,rfl⟩⟩
      rw [rebind_other]
      · exact missing
      · rintro ⟨_,rfl⟩
        cases missing.symm.trans named
  · rename_i apart
    split at done
    · cases done
    · cases named : edges s oldDir oldName with
      | none =>
        obtain ⟨after,removed,searched,cache,_⟩ := removeEntry_missing partly oldIsDir oldShort named
        rw [removed] at done
        cases done
        exact Or.inl ⟨searched,cache⟩
      | some target =>
        obtain ⟨after,removed,changed⟩ := removeEntry_found partly oldIsDir oldShort named
        rw [removed] at done
        cases done
        have room : fullCache (s.dirOf newDir) := (full apart).resolve_right fun many => by
          have gone := (removeEntry_count removed).2
          have count := (addEntry_count after newDir newName target).symm.trans_le few
          simp only [gMaxBlocksPerOperation,Option.isSome_some,if_true] at gone count
          omega
        have free : rebind (edges s) oldDir oldName none newDir newName = none := by
          rw [rebind_other fun both => apart both.1]
          exact missing
        have added := addEntry_changed changed.partly newDir ((changed.itype newDir).trans newIsDir)
          (by rw [changed.others newDir apart]; exact room) entry (by rw [changed.edges]; exact free) target
        exact Or.inr ⟨target,_,rfl,free,⟨fun inum => (added.itype inum).trans (changed.itype inum),
          fun inum => (added.deleting inum).trans (changed.deleting inum),by rw [added.edges,changed.edges],
          added.partly,added.dlookup.trans changed.dlookup⟩,Or.inr ⟨apart,rfl⟩⟩

theorem Coherent.moveSource (coherent : Coherent s) {newpath : Path}
    {oldParent newParent : List CString} {oldName newName : CString} {oldDir newDir : Nat}
    (newNames : newpath.names = newParent ++ [newName]) (oldShort : oldName.length < dirsiz) (entry : Entry newName)
    (oldWalk : walk (edges s) rootIno oldParent = some oldDir) (oldIsDir : (s.inodes oldDir).itype = .dir)
    (newWalk : walk (edges s) rootIno newParent = some newDir) (newIsDir : (s.inodes newDir).itype = .dir)
    (missing : edges s newDir newName = none)
    (full : newDir ≠ oldDir → CanAdd s newDir) (few : s'.loghdr.length ≤ gMaxBlocksPerOperation) (notInside : ¬oldParent ++ [oldName] <+: newParent)
    (avoided : ∀ e ∈ s.dlookup, ¬oldParent ++ [oldName] <+: components e.1)
    (done : moveSource s newpath.chars oldDir oldName newDir newName = some (s',flag)) : Coherent s' := by
  rcases moveSource_cases coherent.partly oldIsDir newIsDir oldShort entry missing full few done with
    ⟨searched,cache⟩ | ⟨target,after,named,free,moved,outcome⟩
  · exact coherent.searched searched cache
  obtain ⟨kept,walks⟩ := coherent.move oldWalk named avoided free moved
  rcases outcome with ⟨_,rfl⟩ | ⟨_,rfl⟩
  · exact kept
  have names' : components newpath.chars = newParent ++ [newName] := newNames
  refine kept.remember ?_ ?_
  · -- A cached path to the new name would have led to something.
    rw [moved.dlookup]
    intro listed
    obtain ⟨e,member,same⟩ := mem_map.mp listed
    have walked := coherent.right e member
    rw [same,names',walk_append,newWalk,bind_some,walk_cons,missing] at walked
    cases walked
  · rw [names']
    refine walk_snoc (walks newParent newDir notInside newWalk) ?_
    rw [moved.edges,rebind_self]

theorem Coherent.rename (coherent : Coherent s) {oldpath newpath : Path}
    (oldSplits : Splits oldpath.chars) (newSplits : Splits newpath.chars) (oldIsDir : ParentIsDir s oldpath.chars)
    (newIsDir : ParentIsDir s newpath.chars) (oldOnly : OnlyAs s oldpath.chars) (newOnly : OnlyAs s newpath.chars)
    (entry : LastIsEntry newpath.chars) (notInside : ¬oldpath.names <+: newpath.names.dropLast)
    (notAbove : ¬newpath.names <+: oldpath.names.dropLast) (few : s'.loghdr.length ≤ gMaxBlocksPerOperation)
    (done : mlfsPosixRename s oldpath.chars newpath.chars = some (s',flag)) : Coherent s' := by
  obtain ⟨oldParent,oldName,oldNames⟩ := split_of_splits oldSplits
  obtain ⟨newParent,newName,newNames⟩ := split_of_splits newSplits
  have start : Coherent s.startLogTx := coherent.congr rfl rfl
  obtain ⟨s₁,returned₁,kept₁,searched₁,cached₁⟩ := start.nameiparent oldSplits oldIsDir oldNames
  have newIsDir₁ : ParentIsDir s₁ newpath.chars := by
    intro pair split inum hit
    rw [searched₁.itype]
    rcases cached₁ _ (dlookupFind_mem hit) with old | ⟨_,dir⟩
    · exact newIsDir pair split inum (dlookupFind_of_mem start.keys old)
    · exact dir
  obtain ⟨s₂,returned₂,kept₂,searched₂,cached₂⟩ := kept₁.nameiparent newSplits newIsDir₁ newNames
  have searched := searched₁.trans searched₂
  rw [oldNames,newNames,dropLast_concat] at notInside
  rw [oldNames,newNames,dropLast_concat] at notAbove
  unfold mlfsPosixRename at done
  rw [returned₁,bind_some] at done
  dsimp only at done
  rw [returned₂,bind_some] at done
  cases oldThere : parentAt s.startLogTx oldParent oldName with
  | none =>
    rw [oldThere] at done
    cases done
  | some oldPair =>
    cases newThere : parentAt s₁ newParent newName with
    | none =>
      rw [oldThere,newThere] at done
      cases done
    | some newPair =>
      obtain ⟨oldDir,oldName'⟩ := oldPair
      obtain ⟨newDir,newName'⟩ := newPair
      obtain ⟨oldWalk,oldType,rfl⟩ := parentAt_some oldThere
      obtain ⟨newWalk,newType,rfl⟩ := parentAt_some newThere
      rw [oldThere,newThere] at done
      dsimp only at done
      have longer : ∀ (names : List CString) (name : CString), ¬names ++ [name] <+: names := by
        intro names name starts
        have long := starts.length_le
        simp at long
      -- The paths that the two lookups cached lead to the parents only.
      have only : ∀ path : CString, OnlyAs s path → ¬components path <+: oldParent → ¬components path <+: newParent →
          OnlyAs s₂ path := by
        intro path before notOld notNew e member through
        rcases cached₂ e member with first | ⟨shape,_⟩
        · rcases cached₁ e first with old | ⟨shape,_⟩
          · exact before e old through
          · exact absurd (shape ▸ through) notOld
        · exact absurd (shape ▸ through) notNew
      have oldNames' : components oldpath.chars = oldParent ++ [oldName'] := oldNames
      have newNames' : components newpath.chars = newParent ++ [newName'] := newNames
      have newOnly₂ := only newpath.chars newOnly (by rw [newNames']; exact notAbove) (by rw [newNames']; exact longer _ _)
      have oldOnly₂ := only oldpath.chars oldOnly (by rw [oldNames']; exact longer _ _) (by rw [oldNames']; exact notInside)
      have oldWalk₂ : walk (edges s₂) rootIno oldParent = some oldDir := searched.edges ▸ oldWalk
      have newWalk₂ : walk (edges s₂) rootIno newParent = some newDir := searched₂.edges ▸ newWalk
      have oldType₂ : (s₂.inodes oldDir).itype = .dir := (searched.itype oldDir).trans oldType
      have newType₂ : (s₂.inodes newDir).itype = .dir := (searched₂.itype newDir).trans newType
      obtain ⟨kept₃,missing,walks,inodes,full,fewer⟩ := kept₂.removeTarget newNames' newWalk₂ newType₂
        (Path.short_last newNames) newOnly₂
      have elsewhere : ∀ {parent : List CString} {dir : Nat}, walk (edges s₂) rootIno parent = some dir →
          ¬newParent ++ [newName'] <+: parent → walk (edges s₂) rootIno (newParent ++ [newName']) ≠ some dir := by
        intro parent dir walked apart target
        exact apart (kept₂.single.walk_unique target walked ▸ prefix_rfl)
      have oldInode := inodes oldDir (elsewhere oldWalk₂ notAbove)
      have newInode := inodes newDir (elsewhere newWalk₂ (longer _ _))
      refine (kept₃.forget oldpath.chars).moveSource newNames (Path.short_last oldNames) ?_
        ((walks oldParent notAbove).trans oldWalk₂) (oldInode.1.trans oldType₂)
        ((walks newParent (longer _ _)).trans newWalk₂) (newInode.1.trans newType₂) missing
        (fun _ => full) few notInside ?_ done
      · exact entry newName' (by rw [newNames']; simp)
      · intro e member through
        obtain ⟨old,other⟩ := dlookupDel_other kept₃.keys member
        exact other (oldOnly₂ e (fewer e old) (by rw [oldNames']; exact through))

-- Paths are split before their last name and a cached parent is a directory; a creation finds a free number and no
-- object of another type; no other cached path leads through an entry that goes away; a rename does not go above or
-- below itself.
def Straight (s : State) : Call → Prop
  | .lookup _ => True
  | .create path inum => Splits path.chars ∧ ParentIsDir s path.chars ∧ LastIsEntry path.chars ∧
      ObjectHas s path.chars .file ∧ (s.inodes inum).itype = .free
  | .mkdir path inum => Splits path.chars ∧ ParentIsDir s path.chars ∧ LastIsEntry path.chars ∧
      ObjectHas s path.chars .dir ∧ (s.inodes inum).itype = .free
  | .unlink path | .rmdir path => Splits path.chars ∧ ParentIsDir s path.chars ∧ OnlyAs s path.chars
  | .rename oldpath newpath => (Splits oldpath.chars ∧ Splits newpath.chars) ∧
      (ParentIsDir s oldpath.chars ∧ ParentIsDir s newpath.chars) ∧ (OnlyAs s oldpath.chars ∧ OnlyAs s newpath.chars) ∧
      LastIsEntry newpath.chars ∧ ¬oldpath.names <+: newpath.names.dropLast ∧ ¬newpath.names <+: oldpath.names.dropLast

instance (s : State) (path : CString) : Decidable (ParentIsDir s path) := by unfold ParentIsDir; infer_instance
instance (s : State) (path : CString) : Decidable (OnlyAs s path) := by unfold OnlyAs; infer_instance
instance (s : State) (path : CString) (type : IType) : Decidable (ObjectHas s path type) := by
  unfold ObjectHas
  infer_instance
instance (path : CString) : Decidable (LastIsEntry path) := by unfold LastIsEntry; infer_instance

instance (s : State) (c : Call) : Decidable (Straight s c) := by
  cases c <;> (unfold Straight; infer_instance)

theorem step_call {next : State} {c : Call} (stepped : step s c = some next) :
    ∃ flag, call s c = some (next,flag) ∧ next.loghdr.length ≤ gMaxBlocksPerOperation := by
  unfold step at stepped
  obtain ⟨⟨after,flag⟩,called,rest⟩ := bind_eq_some_iff.mp stepped
  obtain ⟨few,same⟩ := ite_none_right_eq_some.mp rest
  cases same
  exact ⟨flag,called,few⟩

theorem Coherent.step {next : State} {c : Call} (coherent : Coherent s) (straight : Straight s c)
    (stepped : step s c = some next) : Coherent next := by
  obtain ⟨flag,called,few⟩ := step_call stepped
  cases c with
  | lookup path =>
    cases called
    exact coherent.namei path
  | create path inum | mkdir path inum =>
    obtain ⟨splits,isDir,entry,has,free⟩ := straight
    obtain ⟨⟨after,inode⟩,created,same⟩ := map_eq_some_iff.mp called
    cases same
    exact coherent.create (by simp) splits isDir entry has free created
  | unlink path | rmdir path => exact coherent.unlink straight.1 straight.2.1 straight.2.2 called
  | rename oldpath newpath =>
    obtain ⟨⟨oldSplits,newSplits⟩,⟨oldIsDir,newIsDir⟩,⟨oldOnly,newOnly⟩,entry,notInside,notAbove⟩ := straight
    exact coherent.rename oldSplits newSplits oldIsDir newIsDir oldOnly newOnly entry notInside notAbove few called

theorem namei_finds_namex (s final : State) (calls : List Call) (start : Coherent s) (straight : Guarded step Straight s calls)
    (reached : run step s calls = some final) (path : Path) :
    (namei final path.chars).2 = (namex final false path.chars).2.map Prod.fst := by
  have kept : Coherent final := invariant_run step Straight Coherent
    (fun s c next coherent straight stepped => coherent.step straight stepped) s final calls start straight reached
  exact kept.namei_eq path

def emptyTree : State where
  inodes inum := ⟨if inum = rootIno then .dir else .free,false,loaded []⟩
  dlookup := []
  loghdr := []

theorem emptyTree_coherent : Coherent emptyTree := by
  have nothing : ∀ inum name, edges emptyTree inum name = none := by
    intro inum name
    unfold edges State.dirOf emptyTree
    split <;> rfl
  refine ⟨⟨fun _ => emptyDir_partly,⟨fun inum name => ?_,fun named => ?_⟩,fun named => ?_,rfl,rfl⟩,nodup_nil,by simp [emptyTree]⟩
  · rw [nothing]
    simp
  · rw [nothing] at named
    cases named
  · rw [nothing] at named
    cases named

def pathA : Path := ⟨[47,97],by decide,by decide,by decide⟩
def pathB : Path := ⟨[47,98],by decide,by decide,by decide⟩
def pathAX : Path := ⟨[47,97,47,120],by decide,by decide,by decide⟩
def pathAY : Path := ⟨[47,97,47,121],by decide,by decide,by decide⟩

def straightCalls : List Call :=
  [.mkdir pathA 2,.create pathAX 3,.create pathB 4,.rename pathAX pathAY,.rename pathAY pathB,.lookup pathAX,.rmdir pathA]

theorem namei_finds_namex_emptied :
    ∃ final, run step emptyTree straightCalls = some final ∧
      (namei final pathB.chars).2 = (namex final false pathB.chars).2.map Prod.fst ∧ (namei final pathB.chars).2 = some 3 := by
  obtain ⟨final,reached,found⟩ : ∃ final, run step emptyTree straightCalls = some final ∧ (namei final pathB.chars).2 = some 3 := by
    decide +kernel
  exact ⟨final,reached,namei_finds_namex emptyTree final straightCalls emptyTree_coherent (by decide +kernel) reached pathB,found⟩

-- A directory is renamed while the path of a file in it is cached: the old path still finds it.
theorem renamed_directory_still_found :
    ∃ final, run step emptyTree [.mkdir pathA 2,.create pathAX 3,.rename pathA pathB] = some final ∧
      (namei final pathAX.chars).2 = some 3 ∧ (namex final false pathAX.chars).2 = none := by decide +kernel

end Assise.Namespace
