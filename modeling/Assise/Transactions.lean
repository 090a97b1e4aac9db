import Assise.NamespaceIntegrity
import Assise.OpenFiles

-- The entries that a call asks of the headers of its transactions, followed as if a header had room for any number of
-- them. `none` stands for a failed assertion or a call that does not return.
namespace Assise.Transactions
open Namespace Directory Paths OpenFiles Lib.Runs List Option

structure FileSystem where
  names : Namespace.State
  size : Nat → Nat

inductive Operation where
  | name (c : Namespace.Call)
  | truncate (path : Path) (length : Nat)
  | ftruncate (inum length : Nat)
  | fallocate (inum len : Nat)
  | write (inum n offset : Nat)

def unboundedWrite : Nat → Bool → Nat → Nat → Nat → Option (Nat × List FileTx)
  | 0,_,_,_,_ => none
  | fuel + 1,zeros,size,n,offset =>
    if size < offset then
      (mlfsFileFallocate (unboundedWrite fuel true) size size (offset - size)).bind fun (size,txs) =>
        (unboundedWrite fuel zeros size n offset).map fun (size,more) => (size,txs ++ more)
    else some (if 0 < n ∧ size < offset + n then offset + n else size,[⟨zeros,writeEntries offset n⟩])

-- One `L_TYPE_INODE_UPDATE` entry. The patches that are dropped are not modelled here.
def itrunc (fs : FileSystem) (inum length : Nat) : Option (FileSystem × List Nat) :=
  (fs.names.startLogTx.iupdate inum).map fun names =>
    (⟨names,Function.update fs.size inum length⟩,[names.loghdr.length])

def mlfsPosixTruncate (fs : FileSystem) (path : CString) (length : Nat) : Option (FileSystem × List Nat) :=
  match namei fs.names.startLogTx path with
  | (names,none) => some ({fs with names := names},[names.loghdr.length])
  | (names,some inum) => itrunc {fs with names := names} inum length

-- One `L_TYPE_ALLOC` entry; a length below the size is refused before the transaction.
def mlfsPosixFallocate (fs : FileSystem) (inum len : Nat) : FileSystem × List Nat :=
  if len < fs.size inum then (fs,[]) else (fs,[1])

def sizeAfter (fs : FileSystem) (names : Namespace.State) (inum : Nat) : Nat :=
  if (fs.names.inodes inum).itype = .free ∨ (names.inodes inum).itype = .free then 0 else fs.size inum

def perform (fuel : Nat) (fs : FileSystem) : Operation → Option (FileSystem × List Nat)
  | .name (.lookup path) => some ({fs with names := (namei fs.names path.chars).1},[])
  | .name c => (call fs.names c).map fun (names,_) => (⟨names,sizeAfter fs names⟩,[names.loghdr.length])
  | .truncate path length => mlfsPosixTruncate fs path.chars length
  | .ftruncate inum length => itrunc fs inum length
  | .fallocate inum len => some (mlfsPosixFallocate fs inum len)
  | .write inum n offset =>
    if ioSizeLimit < n then none
    else (unboundedWrite fuel false (fs.size inum) n offset).map fun (size,txs) =>
      ({fs with size := Function.update fs.size inum size},txs.map (·.entries.length))

def step (fuel : Nat) (fs : FileSystem) (op : Operation) : Option FileSystem :=
  (perform fuel fs op).bind fun (next,headers) =>
    if headers.all (· ≤ OpenFiles.gMaxBlocksPerOperation) then some next else none

-- One round of the loop of `mlfs_file_fallocate`: the size, the offset variable and the transactions.
def fill (write : Nat → Nat → Nat → Option (Nat × List FileTx)) (now : Nat × Nat × List FileTx) (ioSize : Nat) :
    Option (Nat × Nat × List FileTx) :=
  (write now.1 now.2.1 ioSize).map fun (size,more) => (size,now.2.1 + now.2.1,now.2.2 ++ more)

variable {offset size' fuel n inum : Nat} {txs : List FileTx} {zeros : Bool} {path : CString}

theorem mlfsFileFallocate_fill (write : Nat → Nat → Nat → Option (Nat × List FileTx)) {size len : Nat}
    (inside : offset ≤ size) (longer : size < offset + len) :
    mlfsFileFallocate write size offset len =
      ((pieces allocIoSize (len - (size - offset)) (len - (size - offset))).foldlM (fill write) (size,size,[])).map
        fun (size,_,txs) => (size,txs) := by
  unfold mlfsFileFallocate
  rw [if_neg (not_lt.mpr inside),if_pos longer]
  rfl

section Mono

variable {write write' : Nat → Nat → Nat → Option (Nat × List FileTx)} {P : FileTx → Prop}
  (more : ∀ size n offset size' txs, write size n offset = some (size',txs) →
    write' size n offset = some (size',txs) ∧ ∀ tx ∈ txs, P tx)

include more

theorem fill_mono {sizes : List Nat} {now last : Nat × Nat × List FileTx} (fit : ∀ tx ∈ now.2.2, P tx)
    (done : sizes.foldlM (fill write) now = some last) :
    sizes.foldlM (fill write') now = some last ∧ ∀ tx ∈ last.2.2, P tx := by
  induction sizes generalizing now with
  | nil =>
    cases done
    exact ⟨rfl,fit⟩
  | cons piece rest ih =>
    rw [foldlM_cons] at done ⊢
    obtain ⟨middle,first,later⟩ := bind_eq_some_iff.mp done
    obtain ⟨⟨size₂,txs₂⟩,written,rfl⟩ := map_eq_some_iff.mp first
    obtain ⟨same,fit₂⟩ := more _ _ _ _ _ written
    have first' : fill write' now piece = some (size₂,now.2.1 + now.2.1,now.2.2 ++ txs₂) := by
      unfold fill
      rw [same]
      rfl
    rw [first']
    exact ih (fun tx member => (mem_append.mp member).elim (fit tx) (fit₂ tx)) later

variable {size' : Nat} {txs : List FileTx}

theorem mlfsFileFallocate_mono {size len : Nat}
    (done : mlfsFileFallocate write size offset len = some (size',txs)) :
    mlfsFileFallocate write' size offset len = some (size',txs) ∧ ∀ tx ∈ txs, P tx := by
  by_cases inside : offset ≤ size
  · by_cases longer : size < offset + len
    · rw [mlfsFileFallocate_fill write inside longer] at done
      rw [mlfsFileFallocate_fill write' inside longer]
      obtain ⟨last,filled,same⟩ := map_eq_some_iff.mp done
      cases same
      obtain ⟨filled',fits⟩ := fill_mono more (by simp) filled
      rw [filled']
      exact ⟨rfl,fits⟩
    · unfold mlfsFileFallocate at done ⊢
      rw [if_neg (not_lt.mpr inside),if_neg longer] at done ⊢
      cases done
      exact ⟨rfl,by simp⟩
  · unfold mlfsFileFallocate at done
    rw [if_pos (Nat.lt_of_not_le inside)] at done
    cases done

end Mono

theorem mlfsFileWrite_unbounded {size : Nat}
    (done : mlfsFileWrite fuel zeros size n offset = some (size',txs)) :
    unboundedWrite fuel zeros size n offset = some (size',txs) ∧
      ∀ tx ∈ txs, tx.entries.length ≤ OpenFiles.gMaxBlocksPerOperation := by
  induction fuel generalizing zeros size n offset size' txs with
  | zero => cases done
  | succ fuel ih =>
    unfold mlfsFileWrite at done
    unfold unboundedWrite
    split at done
    · rename_i behind
      rw [if_pos behind]
      obtain ⟨⟨size₁,txs₁⟩,extended,rest⟩ := bind_eq_some_iff.mp done
      obtain ⟨⟨size₂,txs₂⟩,written,same⟩ := map_eq_some_iff.mp rest
      cases same
      obtain ⟨extended',fit₁⟩ := mlfsFileFallocate_mono (fun _ _ _ _ _ nested => ih nested) extended
      obtain ⟨written',fit₂⟩ := ih written
      rw [extended',bind_some]
      dsimp only
      rw [written']
      exact ⟨rfl,fun tx member => (mem_append.mp member).elim (fit₁ tx) (fit₂ tx)⟩
    · rename_i inside
      rw [if_neg inside]
      obtain ⟨⟨size₁,tx⟩,written,same⟩ := map_eq_some_iff.mp done
      cases same
      unfold writeTx at written
      dsimp only at written
      split at written
      · cases written
      · rename_i room
        cases written
        refine ⟨rfl,fun tx member => ?_⟩
        cases mem_singleton.mp member
        exact Nat.le_of_not_lt fun full => room (.inl full)

-- The number of entries of a write: what stands before the first block boundary, what stands behind
-- the last, and the pieces of 128 MB between them.
def parts (offset n : Nat) : Nat :=
  if offset + n < align offset then min n 1
  else
    min (align offset - offset) 1 +
      (n - (align offset - offset) - (offset + n) % gBlockSizeBytes + (maxIoSize - 1)) / maxIoSize +
      min ((offset + n) % gBlockSizeBytes) 1

theorem pieces_length {limit : Nat} (positive : 0 < limit) (fuel left : Nat) (enough : left ≤ fuel) :
    (pieces limit fuel left).length = (left + (limit - 1)) / limit := by
  induction fuel generalizing left with
  | zero =>
    cases Nat.le_zero.mp enough
    exact (Nat.div_eq_of_lt (by omega)).symm
  | succ fuel ih =>
    unfold pieces
    by_cases none : left = 0
    · subst none
      rw [if_pos rfl]
      exact (Nat.div_eq_of_lt (by omega)).symm
    · rw [if_neg none,length_cons,ih (left - limit) (by omega)]
      by_cases small : left ≤ limit
      · have first : (left - limit + (limit - 1)) / limit = 0 := Nat.div_eq_of_lt (by omega)
        have all : (left + (limit - 1)) / limit = 1 := by
          have shape : left + (limit - 1) = left - 1 + limit := by omega
          rw [shape,Nat.add_div_right _ positive,Nat.div_eq_of_lt (by omega)]
        rw [first,all]
      · have shape : left + (limit - 1) = left - limit + (limit - 1) + limit := by omega
        rw [shape,Nat.add_div_right _ positive]

theorem alignedEntries_length (offset base : Nat) (sizes : List Nat) :
    (alignedEntries offset base sizes).length = sizes.length := by
  induction sizes generalizing offset base with
  | nil => rfl
  | cons size rest ih => simp [alignedEntries,ih]

theorem optional_length (k : Nat) (e : FileEntry) : (if 0 < k then [e] else []).length = min k 1 := by
  split
  · simp only [length_singleton]
    omega
  · simp only [length_nil]
    omega

theorem writeEntries_length (offset n : Nat) : (writeEntries offset n).length = parts offset n := by
  unfold writeEntries parts
  split
  · exact optional_length ..
  · rw [length_append,length_append,optional_length,optional_length,alignedEntries_length,
      pieces_length (by decide) _ _ (le_refl _)]

theorem parts_limited (limited : n ≤ ioSizeLimit) : parts offset n ≤ 3 := by
  unfold parts
  split
  · omega
  · have one : (n - (align offset - offset) - (offset + n) % gBlockSizeBytes + (maxIoSize - 1)) / maxIoSize ≤ 1 := by
      refine Nat.le_of_lt_succ ((Nat.div_lt_iff_lt_mul (by decide)).mpr ?_)
      have small : ioSizeLimit + (maxIoSize - 1) < (1 + 1) * maxIoSize := by decide
      omega
    have before : min (align offset - offset) 1 ≤ 1 := min_le_right ..
    have behind : min ((offset + n) % gBlockSizeBytes) 1 ≤ 1 := min_le_right ..
    omega

def OneFits (tx : FileTx) : Prop := tx.entries.length ≤ OpenFiles.gMaxBlocksPerOperation

theorem oneFits_limited (offset : Nat) (zeros : Bool) (limited : n ≤ ioSizeLimit) : OneFits ⟨zeros,writeEntries offset n⟩ := by
  unfold OneFits
  rw [writeEntries_length]
  exact le_trans (parts_limited limited) (by decide)

theorem pieces_single {limit left : Nat} (positive : 0 < left) (near : left ≤ limit) : pieces limit left left = [left] := by
  cases left with
  | zero => cases positive
  | succ left =>
    unfold pieces
    rw [if_neg (Nat.succ_ne_zero left),min_eq_left near,Nat.sub_eq_zero_of_le near]
    cases left <;> rfl

theorem fallocate_one_piece {write : Nat → Nat → Nat → Option (Nat × List FileTx)} {size gap : Nat} (positive : 0 < gap)
    (near : gap ≤ allocIoSize) : mlfsFileFallocate write size size gap = write size size gap := by
  rw [mlfsFileFallocate_fill write (le_refl size) (by omega),Nat.sub_self,Nat.sub_zero,pieces_single positive near,
    foldlM_cons]
  unfold fill
  dsimp only
  cases write size size gap with
  | none => rfl
  | some result => rfl

variable {size : Nat}

theorem unboundedWrite_inside
    (inside : offset ≤ size) (done : unboundedWrite fuel zeros size n offset = some (size',txs)) :
    size' = (if 0 < n ∧ size < offset + n then offset + n else size) ∧ txs = [⟨zeros,writeEntries offset n⟩] := by
  cases fuel with
  | zero => cases done
  | succ fuel =>
    unfold unboundedWrite at done
    rw [if_neg (not_lt.mpr inside)] at done
    cases done
    exact ⟨rfl,rfl⟩

theorem unboundedWrite_near
    (behind : size < offset) (near : offset ≤ size + allocIoSize)
    (done : unboundedWrite fuel zeros size n offset = some (size',txs)) :
    ∃ fuel' size₁ txs₁ txs₂, fuel' < fuel ∧ unboundedWrite fuel' true size size (offset - size) = some (size₁,txs₁) ∧
      unboundedWrite fuel' zeros size₁ n offset = some (size',txs₂) ∧ txs = txs₁ ++ txs₂ := by
  cases fuel with
  | zero => cases done
  | succ fuel =>
    unfold unboundedWrite at done
    rw [if_pos behind,fallocate_one_piece (by omega) (by omega)] at done
    obtain ⟨⟨size₁,txs₁⟩,extended,rest⟩ := bind_eq_some_iff.mp done
    obtain ⟨⟨size₂,txs₂⟩,written,same⟩ := map_eq_some_iff.mp rest
    cases same
    exact ⟨fuel,size₁,txs₁,txs₂,Nat.lt_succ_self fuel,extended,written,rfl⟩

theorem small_writes_fit
    (small : offset ≤ allocIoSize) (limited : n ≤ ioSizeLimit)
    (done : unboundedWrite fuel zeros size n offset = some (size',txs)) : ∀ tx ∈ txs, OneFits tx := by
  induction fuel using Nat.strongRecOn generalizing zeros size n offset size' txs with
  | ind fuel ih =>
    by_cases behind : size < offset
    · obtain ⟨fuel',size₁,txs₁,txs₂,less,extended,written,rfl⟩ := unboundedWrite_near behind (by omega) done
      have within : allocIoSize ≤ ioSizeLimit := by decide
      have first := ih fuel' less (by omega) (by omega) extended
      have second := ih fuel' less small limited written
      exact fun tx member => (mem_append.mp member).elim (first tx) (second tx)
    · obtain ⟨_,rfl⟩ := unboundedWrite_inside (Nat.le_of_not_lt behind) done
      intro tx member
      cases mem_singleton.mp member
      exact oneFits_limited _ zeros limited

theorem unboundedWrite_reaches
    (done : unboundedWrite fuel zeros size n offset = some (size',txs)) : offset + n ≤ size' := by
  induction fuel generalizing zeros size n offset size' txs with
  | zero => cases done
  | succ fuel ih =>
    by_cases behind : size < offset
    · unfold unboundedWrite at done
      rw [if_pos behind] at done
      obtain ⟨⟨size₁,txs₁⟩,_,rest⟩ := bind_eq_some_iff.mp done
      obtain ⟨⟨size₂,txs₂⟩,written,same⟩ := map_eq_some_iff.mp rest
      cases same
      exact ih written
    · obtain ⟨rfl,_⟩ := unboundedWrite_inside (Nat.le_of_not_lt behind) done
      split <;> omega

def WriteFits (size offset : Nat) : Prop :=
  offset ≤ size ∨ (offset ≤ size + allocIoSize ∧ parts (offset - size) size ≤ OpenFiles.gMaxBlocksPerOperation)

instance (size offset : Nat) : Decidable (WriteFits size offset) := by
  unfold WriteFits
  infer_instance

theorem write_fits_iff (limited : n ≤ ioSizeLimit)
    (near : offset ≤ size + allocIoSize) (done : unboundedWrite fuel false size n offset = some (size',txs)) :
    (∀ tx ∈ txs, OneFits tx) ↔ WriteFits size offset := by
  by_cases behind : size < offset
  · obtain ⟨fuel',size₁,txs₁,txs₂,_,extended,written,rfl⟩ := unboundedWrite_near behind near done
    have reached := unboundedWrite_reaches extended
    obtain ⟨_,rfl⟩ := unboundedWrite_inside (by omega) written
    have last := oneFits_limited offset false limited
    unfold WriteFits
    by_cases small : size ≤ ioSizeLimit
    · have first := small_writes_fit (by omega) small extended
      have counted : parts (offset - size) size ≤ 3 := parts_limited small
      refine ⟨fun _ => .inr ⟨near,le_trans counted (by decide)⟩,fun _ tx member => ?_⟩
      rcases mem_append.mp member with before | here
      · exact first tx before
      · cases mem_singleton.mp here
        exact last
    · have large : allocIoSize ≤ ioSizeLimit := by decide
      obtain ⟨_,rfl⟩ := unboundedWrite_inside (by omega) extended
      simp only [mem_append,mem_singleton,forall_eq_or_imp,forall_eq]
      constructor
      · rintro ⟨fits,_⟩
        rw [OneFits,writeEntries_length] at fits
        exact .inr ⟨near,fits⟩
      · rintro (inside | ⟨_,fits⟩)
        · omega
        · rw [←writeEntries_length] at fits
          exact ⟨fits,last⟩
  · obtain ⟨_,rfl⟩ := unboundedWrite_inside (Nat.le_of_not_lt behind) done
    refine ⟨fun _ => .inl (Nat.le_of_not_lt behind),fun _ tx member => ?_⟩
    cases mem_singleton.mp member
    exact oneFits_limited _ false limited

section Names

theorem namexFrom_loghdr (parent : Bool) (fuel : Nat) (s : Namespace.State) (ip : Nat) (name path : CString) :
    (namexFrom parent fuel s ip name path).1.loghdr = s.loghdr := by
  induction fuel generalizing s ip name path with
  | zero => rfl
  | succ fuel ih =>
    unfold namexFrom
    split
    · rfl
    split
    · rfl
    split
    · rfl
    split
    · rfl
    · exact ih ..

theorem namei_loghdr (s : Namespace.State) (path : CString) : (namei s path).1.loghdr = s.loghdr := by
  have walked := namexFrom_loghdr false (path.length + 1) s rootIno [] path
  unfold namei namex
  split
  · rfl
  · split <;> rename_i found <;> rw [found] at walked <;> exact walked

variable {s' s : Namespace.State} {path name : CString} {dir inum : Nat} {result : Option Nat} {flag : Bool}

theorem nameiparent_loghdr {result : Option (Nat × CString)}
    (found : nameiparent s path = some (s',result)) : s'.loghdr = s.loghdr := by
  have walked := namexFrom_loghdr true (path.length + 1) s rootIno [] path
  unfold nameiparent namex at found
  obtain ⟨⟨parentPath,name⟩,_,same⟩ := map_eq_some_iff.mp found
  dsimp only at same
  split at same
  · cases same
    rfl
  · split at same <;> rename_i looked <;> cases same <;> rw [looked] at walked <;> exact walked

theorem removeEntry_other {other : Nat}
    (removed : removeEntry s dir name = (s',result)) (apart : other ≠ dir) : s'.inodes other = s.inodes other := by
  unfold removeEntry at removed
  split at removed <;> cases removed
  · exact setDir_other apart _
  · exact setDir_other (s:=s) apart _

theorem iupdate_count {ip : Nat} (updated : s.iupdate ip = some s') :
    s'.loghdr.length = s.loghdr.length + 1 := by
  obtain ⟨_,same⟩ := ite_none_left_eq_some.mp updated
  cases same
  simp [State.addToLoghdr]

theorem createIn_count {type : IType} {parent : Nat} (fresh : s.loghdr = []) (created : createIn s path type inum parent name = some (s',result)) :
    s'.loghdr.length ≤ 4 := by
  unfold createIn at created
  obtain ⟨s₁,linked,same⟩ := map_eq_some_iff.mp created
  have few : s₁.loghdr.length ≤ 3 := by
    split at linked
    · rw [iupdate_count linked]
      simp [State.addToLoghdr,State.icreate,State.setInode,fresh]
    · cases linked
      simp [State.addToLoghdr,State.icreate,State.setInode,fresh]
  have added := addEntry_count s₁ parent name inum
  cases same
  split
  · exact added.trans_le (Nat.succ_le_succ few)
  · exact added.trans_le (Nat.succ_le_succ few)

theorem create_count {type : IType}
    (created : mlfsObjectCreate s path type inum = some (s',result)) : s'.loghdr.length ≤ 4 := by
  unfold Namespace.mlfsObjectCreate at created
  dsimp only at created
  split at created
  · obtain ⟨s₁,updated,same⟩ := map_eq_some_iff.mp created
    cases same
    rw [iupdate_count updated]
    simp [State.setType,State.setInode,State.startLogTx]
  · obtain ⟨⟨s₁,parent⟩,found,rest⟩ := bind_eq_some_iff.mp created
    have nothing : s₁.loghdr = [] := nameiparent_loghdr found
    dsimp only at rest
    split at rest
    · cases rest
      simp [nothing]
    · split at rest
      · obtain ⟨s₂,updated,same⟩ := map_eq_some_iff.mp rest
        cases same
        rw [iupdate_count updated]
        simp [State.setType,State.setDir,State.setInode,nothing]
      · exact createIn_count (by simp [State.setDir,State.setInode,nothing]) rest

theorem unlink_count
    (unlinked : mlfsPosixUnlink s path = some (s',flag)) : s'.loghdr.length ≤ 3 := by
  unfold mlfsPosixUnlink at unlinked
  obtain ⟨⟨s₁,parent⟩,found,rest⟩ := map_eq_some_iff.mp unlinked
  have nothing : s₁.loghdr = [] := nameiparent_loghdr found
  cases parent with
  | none =>
    cases rest
    simp [nothing]
  | some pair =>
    obtain ⟨dir,name⟩ := pair
    dsimp only at rest
    cases removed : removeEntry s₁ dir name with
    | mk s₂ result =>
      have counted := (removeEntry_count removed).2
      have one := moves_le s₁ dir name
      rw [removed] at rest
      rw [nothing] at counted
      cases result with
      | none =>
        cases rest
        simp [counted]
      | some ip =>
        cases rest
        simp only [State.addToLoghdr,State.idealloc,State.setInode,State.dlookupDel,length_append,counted]
        simp
        omega

theorem removeTarget_count (s : Namespace.State) (path : CString) (dir : Nat) (name : CString) :
    (removeTarget s path dir name).loghdr.length = s.loghdr.length + (if finds s dir name then moves s dir name + 2 else 0) ∧
      ∀ other, other ≠ dir → ((removeTarget s path dir name).inodes other).deleting = false →
        (removeTarget s path dir name).inodes other = s.inodes other := by
  unfold removeTarget
  cases removed : removeEntry s dir name with
  | mk s' result =>
    obtain ⟨found,counted⟩ := removeEntry_count removed
    rw [←found]
    cases result with
    | none => exact ⟨counted,fun other apart _ => removeEntry_other removed apart⟩
    | some ip =>
      refine ⟨?_,fun other apart alive => ?_⟩
      · simp only [State.addToLoghdr,State.idealloc,State.setInode,State.dlookupDel,length_append,counted]
        simp
        omega
      · by_cases freed : other = ip
        · subst freed
          simp [State.addToLoghdr,State.idealloc,State.setInode] at alive
        · rw [←removeEntry_other removed apart]
          simp [State.addToLoghdr,State.idealloc,State.setInode,State.dlookupDel,freed]

theorem changeEntry_count (s : Namespace.State) (dir : Nat) (oldname newname : CString) :
    (changeEntry s dir oldname newname).1.loghdr.length ≤ s.loghdr.length + 1 := by
  unfold changeEntry
  split <;> simp [State.addToLoghdr,State.setDir,State.setInode]

theorem moveSource_count {newpath : CString} {oldDir newDir : Nat} {oldName newName : CString} (apart : newDir ≠ oldDir) (moved : moveSource s newpath oldDir oldName newDir newName = some (s',flag)) :
    (s.inodes oldDir).deleting = false ∧
      s'.loghdr.length = s.loghdr.length + (if finds s oldDir oldName then moves s oldDir oldName + 2 else 0) := by
  unfold moveSource at moved
  rw [if_neg apart] at moved
  obtain ⟨alive,rest⟩ := ite_none_left_eq_some.mp moved
  refine ⟨by simpa using alive,?_⟩
  cases removed : removeEntry s oldDir oldName with
  | mk s₁ result =>
    obtain ⟨found,counted⟩ := removeEntry_count removed
    rw [removed] at rest
    rw [←found]
    cases result with
    | none =>
      cases rest
      exact counted
    | some ip =>
      cases rest
      have added := addEntry_count s₁ newDir newName ip
      rw [counted] at added
      exact added

def renameBegins (s : Namespace.State) (oldpath newpath : CString) :
    Option (Namespace.State × (Nat × CString) × (Nat × CString)) :=
  (nameiparent s.startLogTx oldpath).bind fun (s,oldParent) => (nameiparent s newpath).bind fun (s,newParent) =>
    oldParent.bind fun old => newParent.map fun new => (s,old,new)

-- Source and target are there, in different directories, and are the last entries of these.
def RenameFits (s : Namespace.State) (oldpath newpath : CString) : Prop :=
  ∀ found ∈ renameBegins s oldpath newpath, found.2.1.1 ≠ found.2.2.1 →
    finds found.1 found.2.2.1 found.2.2.2 → finds found.1 found.2.1.1 found.2.1.2 →
    moves found.1 found.2.2.1 found.2.2.2 = 0 ∧ moves found.1 found.2.1.1 found.2.1.2 = 0

instance (s : Namespace.State) (oldpath newpath : CString) : Decidable (RenameFits s oldpath newpath) := by
  unfold RenameFits
  infer_instance

theorem finds_congr (s' : Namespace.State) (same : s'.inodes dir = s.inodes dir) (name : CString) :
    finds s' dir name = finds s dir name ∧ moves s' dir name = moves s dir name := by
  unfold finds moves State.dirOf
  rw [same]
  exact ⟨rfl,rfl⟩

theorem rename_fits_iff {oldpath newpath : CString}
    (renamed : mlfsPosixRename s oldpath newpath = some (s',flag)) :
    s'.loghdr.length ≤ OpenFiles.gMaxBlocksPerOperation ↔ RenameFits s oldpath newpath := by
  unfold mlfsPosixRename at renamed
  obtain ⟨⟨s₁,oldParent⟩,returned₁,rest⟩ := bind_eq_some_iff.mp renamed
  obtain ⟨⟨s₂,newParent⟩,returned₂,rest⟩ := bind_eq_some_iff.mp rest
  have nothing : s₂.loghdr = [] := (nameiparent_loghdr returned₂).trans (nameiparent_loghdr returned₁)
  cases oldParent with
  | none => cases rest
  | some old =>
    cases newParent with
    | none => cases rest
    | some new =>
      obtain ⟨oldDir,oldName⟩ := old
      obtain ⟨newDir,newName⟩ := new
      dsimp only at rest
      have begins : renameBegins s oldpath newpath = some (s₂,(oldDir,oldName),(newDir,newName)) := by
        simp [renameBegins,returned₁,returned₂]
      obtain ⟨counted,others⟩ := removeTarget_count s₂ newpath newDir newName
      rw [nothing] at counted
      have one := moves_le s₂ newDir newName
      have room : OpenFiles.gMaxBlocksPerOperation = 4 := rfl
      unfold RenameFits
      rw [begins]
      simp only [Option.mem_some_iff,forall_eq']
      by_cases within : newDir = oldDir
      · have few : s'.loghdr.length ≤ 4 := by
          unfold moveSource at rest
          rw [if_pos within] at rest
          have changed := changeEntry_count ((removeTarget s₂ newpath newDir newName).dlookupDel oldpath) newDir oldName newName
          rw [Option.some.inj rest] at changed
          refine le_trans changed (Nat.succ_le_succ ?_)
          refine le_trans (le_of_eq counted) ?_
          split
          · exact le_trans (le_of_eq (zero_add _)) (Nat.add_le_add_right one 2)
          · exact Nat.zero_le 3
        exact ⟨fun _ apart => absurd within.symm apart,fun _ => few⟩
      · obtain ⟨alive,total⟩ := moveSource_count within rest
        -- The old directory is not the target, so it is as it was.
        obtain ⟨sameFinds,sameMoves⟩ := finds_congr ((removeTarget s₂ newpath newDir newName).dlookupDel oldpath)
          (others oldDir (Ne.symm within) alive) oldName
        have length : ((removeTarget s₂ newpath newDir newName).dlookupDel oldpath).loghdr.length =
            if finds s₂ newDir newName then moves s₂ newDir newName + 2 else 0 := by
          simpa [State.dlookupDel] using counted
        rw [sameFinds,sameMoves,length] at total
        have other := moves_le s₂ oldDir oldName
        rw [total,room]
        constructor
        · intro few _ target source
          rw [if_pos target,if_pos source] at few
          omega
        · intro last
          split
          · split
            · rename_i target source
              obtain ⟨first,second⟩ := last (Ne.symm within) target source
              omega
            · omega
          · split <;> omega

end Names

def Near (fs : FileSystem) : Operation → Prop
  | .write inum _ offset => offset ≤ fs.size inum + allocIoSize
  | _ => True

def Fits (fs : FileSystem) : Operation → Prop
  | .name (.rename oldpath newpath) => RenameFits fs.names oldpath.chars newpath.chars
  | .write inum _ offset => WriteFits (fs.size inum) offset
  | _ => True

theorem itrunc_count {fs next : FileSystem} {length : Nat} {headers : List Nat}
    (done : itrunc fs inum length = some (next,headers)) : headers = [1] := by
  obtain ⟨names,updated,same⟩ := map_eq_some_iff.mp done
  cases same
  rw [iupdate_count updated]
  rfl

theorem truncate_count {fs next : FileSystem} {length : Nat} {headers : List Nat}
    (done : mlfsPosixTruncate fs path length = some (next,headers)) : headers = [0] ∨ headers = [1] := by
  have looked := namei_loghdr fs.names.startLogTx path
  unfold mlfsPosixTruncate at done
  split at done <;> rename_i found
  · rw [found] at looked
    cases done
    rw [looked]
    exact .inl rfl
  · exact .inr (itrunc_count done)

theorem transactions_fit (fuel : Nat) (fs next : FileSystem) (op : Operation) (headers : List Nat)
    (done : perform fuel fs op = some (next,headers)) :
    (Fits fs op → ∀ count ∈ headers, count ≤ OpenFiles.gMaxBlocksPerOperation) ∧
      (Near fs op → (∀ count ∈ headers, count ≤ OpenFiles.gMaxBlocksPerOperation) → Fits fs op) := by
  have always : ∀ {n : Nat}, n ≤ 4 → ∀ count ∈ [n], count ≤ OpenFiles.gMaxBlocksPerOperation := by
    intro n few count member
    cases mem_singleton.mp member
    exact few
  cases op with
  | name c =>
    cases c with
    | lookup path =>
      cases done
      exact ⟨fun _ => by simp,fun _ _ => trivial⟩
    | create path inum | mkdir path inum =>
      obtain ⟨⟨names,flag⟩,called,same⟩ := map_eq_some_iff.mp done
      obtain ⟨⟨after,inode⟩,created,same'⟩ := map_eq_some_iff.mp called
      cases same
      cases same'
      exact ⟨fun _ => always (create_count created),fun _ _ => trivial⟩
    | unlink path | rmdir path =>
      obtain ⟨⟨names,flag⟩,called,same⟩ := map_eq_some_iff.mp done
      cases same
      exact ⟨fun _ => always (Nat.le_succ_of_le (unlink_count called)),fun _ _ => trivial⟩
    | rename oldpath newpath =>
      obtain ⟨⟨names,flag⟩,called,same⟩ := map_eq_some_iff.mp done
      cases same
      have exact := rename_fits_iff called
      exact ⟨fun fits => always (exact.mpr fits),fun _ few => exact.mp (few _ (mem_singleton.mpr rfl))⟩
  | truncate path length =>
    refine ⟨fun _ => ?_,fun _ _ => trivial⟩
    rcases truncate_count done with rfl | rfl
    · exact always (by decide)
    · exact always (by decide)
  | ftruncate inum length =>
    refine ⟨fun _ => ?_,fun _ _ => trivial⟩
    cases itrunc_count done
    exact always (by decide)
  | fallocate inum len =>
    refine ⟨fun _ => ?_,fun _ _ => trivial⟩
    have same := Option.some.inj done
    unfold mlfsPosixFallocate at same
    split at same <;> cases same
    · simp
    · exact always (by decide)
  | write inum n offset =>
    unfold perform at done
    obtain ⟨limited,rest⟩ := ite_none_left_eq_some.mp done
    obtain ⟨⟨size,txs⟩,written,same⟩ := map_eq_some_iff.mp rest
    cases same
    have exact : Near fs (.write inum n offset) → _ := fun near =>
      write_fits_iff (Nat.le_of_not_lt limited) near written
    simp only [List.mem_map,forall_exists_index,and_imp,forall_apply_eq_imp_iff₂]
    refine ⟨fun fits => (exact ?_).mpr fits,fun near => (exact near).mp⟩
    rcases fits with inside | ⟨near,_⟩
    · exact le_trans inside (Nat.le_add_right ..)
    · exact near

def pathBX : Path := ⟨[47,98,47,120],by decide,by decide,by decide⟩
def pathBY : Path := ⟨[47,98,47,121],by decide,by decide,by decide⟩

def twoDirectories : List Operation :=
  [.name (.mkdir pathA 2),.name (.mkdir pathB 3),.name (.create pathAX 4),.name (.create pathAY 5),
    .name (.create pathBX 6),.name (.create pathBY 7)]

def emptyFileSystem : FileSystem := ⟨emptyTree,fun _ => 0⟩

instance (fs : FileSystem) : (op : Operation) → Decidable (Fits fs op)
  | .name (.rename oldpath newpath) => inferInstanceAs (Decidable (RenameFits fs.names oldpath.chars newpath.chars))
  | .write inum _ offset => inferInstanceAs (Decidable (WriteFits (fs.size inum) offset))
  | .name (.lookup _) | .name (.create _ _) | .name (.mkdir _ _) | .name (.unlink _) | .name (.rmdir _)
  | .truncate _ _ | .ftruncate _ _ | .fallocate _ _ => .isTrue trivial

theorem transactions_fit_last :
    ∃ fs next headers, run (step 4) emptyFileSystem twoDirectories = some fs ∧
      perform 4 fs (.name (.rename pathAY pathBY)) = some (next,headers) ∧ headers = [4] ∧
      Fits fs (.name (.rename pathAY pathBY)) ∧ ∀ count ∈ headers, count ≤ OpenFiles.gMaxBlocksPerOperation := by
  obtain ⟨fs,reached,fits,next,headers,done,counted⟩ : ∃ fs, run (step 4) emptyFileSystem twoDirectories = some fs ∧
      Fits fs (.name (.rename pathAY pathBY)) ∧
      ∃ next headers, perform 4 fs (.name (.rename pathAY pathBY)) = some (next,headers) ∧ headers = [4] := by decide +kernel
  exact ⟨fs,next,headers,reached,done,counted,fits,
    (transactions_fit 4 fs next (.name (.rename pathAY pathBY)) headers done).1 fits⟩

-- "/a/x" is renamed over "/b/x": six entries.
theorem rename_overfills_header :
    ∃ fs, run (step 4) emptyFileSystem twoDirectories = some fs ∧
      (perform 4 fs (.name (.rename pathAX pathBX))).map Prod.snd = some [6] ∧ step 4 fs (.name (.rename pathAX pathBX)) = none := by decide +kernel

end Assise.Transactions
