import Assise.DigestTotal
import Assise.FileWrite

-- What LibFS accepts and what KernFS can digest: calls are checked against the inodes in memory, their entries
-- against those digested so far. `none` stands for a failed assertion, a call that fails or does not return.
namespace Assise.Acceptance

open Digest FileMap Lib.Runs List Option Function
open OpenFiles (FileEntry FileTx mlfsFileWrite mlfsFileFallocate writeEntries alignedEntries ioSizeLimit)
open Extents (extMaxBlocks)
open MapTable (gBlockSizeBytes)

def direntSize : Nat := 32

inductive Item where
  | inode (inum : Nat)
  | file (inum offset length : Nat)
  | unlink (inum : Nat)
  | alloc (inum length : Nat)
deriving DecidableEq, Repr

def Item.inum : Item → Nat
  | .inode inum | .file inum _ _ | .unlink inum | .alloc inum _ => inum

-- `persist_log_inode` copies the inode as it is at the commit.
def Item.entry (final : Labels) (blknr : Nat) : Item → LogEntry
  | .inode inum => .inode inum (final inum).1 (final inum).2
  | .file inum offset length => .file inum offset length blknr
  | .unlink inum => .unlink inum
  | .alloc inum length => .alloc inum length

-- A transaction under way. An inode that is being deleted has no type.
structure Header where
  inodes : Labels
  items : List Item

namespace Header

def addToLog (h : Header) (inum offset size : Nat) : Header where
  inodes := update h.inodes inum ((h.inodes inum).1,max (h.inodes inum).2 (offset + size))
  items := h.items ++ [.file inum offset size]

-- An inode is given a type and a size and is logged, with `mlfs_assert(!(ip->flags & I_DELETING))`.
def iupdate (h : Header) (inum : Nat) (itype : Option FileType) (size : Nat) : Option Header :=
  if itype = none then none
  else some ⟨update h.inodes inum (itype,size),h.items ++ [.inode inum]⟩

def itrunc (h : Header) (inum length : Nat) : Option Header := h.iupdate inum (h.inodes inum).1 length

def idealloc (h : Header) (inum : Nat) : Header where
  inodes := update h.inodes inum (none,0)
  items := h.items ++ [.unlink inum]

def dirAddEntry (h : Header) (dir : Nat) : Header := h.addToLog dir (h.inodes dir).2 direntSize

def dirAddLinks (h : Header) (dir : Nat) : Header := h.addToLog dir 0 (direntSize * 2)

def dirChangeEntry (h : Header) (dir slot : Nat) : Option Header :=
  if slot + direntSize ≤ (h.inodes dir).2 then some (h.addToLog dir slot direntSize) else none

def dirRemoveEntry (h : Header) (dir slot : Nat) : Option Header :=
  if slot + direntSize ≤ (h.inodes dir).2 then
    let lastOff := (h.inodes dir).2 - direntSize
    (if slot < lastOff then h.addToLog dir slot direntSize else h).itrunc dir lastOff
  else none

def addEntries (h : Header) (inum : Nat) (entries : List FileEntry) : Header :=
  entries.foldl (fun h e => h.addToLog inum e.offset e.length) h

end Header

-- Calls on the inodes that paths and descriptors stand for. `create` and `mkdir` name the number that `icreate`
-- finds, `unlink` and `rename` the slots and the number that a removed name had.
inductive Call where
  | create (inum parent : Nat)
  | mkdir (inum parent : Nat)
  | touch (inum : Nat) (type : FileType)
  | unlink (dir slot inum : Nat)
  | rename (target : Option (Nat × Nat)) (oldDir slot newDir : Nat)
  | truncate (inum length : Nat)
  | fallocate (inum len : Nat)
  | write (inum n offset : Nat)
  | lseekEnd (inum : Nat) (offset : Int64)
deriving DecidableEq

def lookedUp (inodes : Labels) (inum : Nat) : Option Header :=
  if (inodes inum).1 = none then none else some ⟨inodes,[]⟩

def mlfsObjectCreate (inodes : Labels) (type : FileType) (inum parent : Nat) : Option Header :=
  (lookedUp inodes parent).bind fun h =>
    if (inodes inum).1 ≠ none then none
    else (h.iupdate inum (some type) 0).bind fun h =>
      if type = .dir then
        let h := h.dirAddLinks inum
        (h.iupdate parent (h.inodes parent).1 (h.inodes parent).2).map fun h => h.dirAddEntry parent
      else some (h.dirAddEntry parent)

def mlfsPosixUnlink (inodes : Labels) (dir slot inum : Nat) : Option Header :=
  (lookedUp inodes dir).bind fun h => (h.dirRemoveEntry dir slot).map fun h => h.idealloc inum

def removeTarget (h : Header) (newDir : Nat) : Option (Nat × Nat) → Option Header
  | none => some h
  | some (slot,inum) => (h.dirRemoveEntry newDir slot).map fun h => h.idealloc inum

def mlfsPosixRename (inodes : Labels) (target : Option (Nat × Nat)) (oldDir slot newDir : Nat) : Option Header :=
  (lookedUp inodes oldDir).bind fun _ => (lookedUp inodes newDir).bind fun h =>
    (removeTarget h newDir target).bind fun h =>
      if newDir = oldDir then h.dirChangeEntry newDir slot
      else (h.dirRemoveEntry oldDir slot).map fun h => h.dirAddEntry newDir

def mlfsPosixFallocate (inodes : Labels) (inum len : Nat) : Option Header :=
  if len < (inodes inum).2 then none else some ⟨inodes,[.alloc inum len]⟩

def mlfsPosixWrite (fuel : Nat) (inodes : Labels) (inum n offset : Nat) : Option Header :=
  if ioSizeLimit < n then none
  else (mlfsFileWrite fuel false (inodes inum).2 n offset).map fun (_,txs) =>
    (⟨inodes,[]⟩ : Header).addEntries inum (txs.flatMap (·.entries))

def mlfsPosixLseekEnd (inodes : Labels) (inum : Nat) (offset : Int64) : Header :=
  ⟨update inodes inum ((inodes inum).1,(UInt64.ofNat (inodes inum).2 + offset.toUInt64).toNat),[]⟩

def call (fuel : Nat) (inodes : Labels) : Call → Option Header
  | .create inum parent => mlfsObjectCreate inodes .file inum parent
  | .mkdir inum parent => mlfsObjectCreate inodes .dir inum parent
  | .touch inum type => (lookedUp inodes inum).bind fun h => h.iupdate inum (some type) (inodes inum).2
  | .unlink dir slot inum => mlfsPosixUnlink inodes dir slot inum
  | .rename target oldDir slot newDir => mlfsPosixRename inodes target oldDir slot newDir
  | .truncate inum length => (⟨inodes,[]⟩ : Header).itrunc inum length
  | .fallocate inum len => mlfsPosixFallocate inodes inum len
  | .write inum n offset => mlfsPosixWrite fuel inodes inum n offset
  | .lseekEnd inum offset => some (mlfsPosixLseekEnd inodes inum offset)

structure System where
  inodes : Labels
  log : List LogEntry
  kern : KernFs

inductive Action where
  | call (c : Call) (blocks : List Nat)
  | persist (blk offset size : Nat) (bytes : Nat → UInt8)
  | digest
  | flush (rest : Disk) (referenced : List Nat)

def Header.commit (h : Header) (blocks : List Nat) : List LogEntry :=
  List.zipWith (fun item blknr => item.entry h.inodes blknr) h.items blocks

def step (fuel libfsId : Nat) (s : System) : Action → Option System
  | .call c blocks => (call fuel s.inodes c).bind fun h =>
    if blocks.length = h.items.length ∧ ∀ entry ∈ h.commit blocks, InOwnLog s.kern libfsId entry then
      some {s with inodes := h.inodes,log := s.log ++ h.commit blocks}
    else none
  | .persist blk offset size bytes =>
    if s.kern.OwnLog libfsId blk then some {s with kern := logWrite s.kern blk offset size bytes} else none
  | .digest =>
    match s.log with
    | [] => none
    | entry :: rest => (digestEntry s.kern libfsId entry).map fun kern => {s with log := rest,kern := kern}
  | .flush rest referenced => some {s with kern := syncAllBuffers s.kern rest referenced}

-- The calls work on inodes of the table, which stay below 16 TB; they do not write to a removed file or remove the
-- directory they work in; `fallocate` asks for more than the file has, and a seek from the end keeps the size.
def Careful (fuel n : Nat) (inodes : Labels) (c : Call) : Prop :=
  (match call fuel inodes c with
    | none => True
    | some h => ∀ item ∈ h.items, item.inum < n ∧ SizeFits (h.inodes item.inum).2) ∧
  match c with
  | .unlink dir _ inum => inum ≠ dir
  | .rename (some (_,inum)) _ _ newDir => inum ≠ newDir
  | .fallocate inum len => (inodes inum).1 ≠ none ∧ (inodes inum).2 < len ∧ SizeFits len
  | .write inum _ _ => (inodes inum).1 ≠ none
  | .lseekEnd _ offset => offset = 0
  | .create .. | .mkdir .. | .touch .. | .rename none .. | .truncate .. => True

def Ok (fuel libfsId : Nat) (s : System) : Action → Prop
  | .call c _ => Careful fuel s.kern.inodes.length s.inodes c
  | .digest =>
    match s.log with
    | [] => True
    | entry :: _ => BlocksOk s.kern libfsId entry
  | .persist .. | .flush .. => True

structure Start (s : System) : Prop where
  formed : Formed s.kern
  inodes : s.inodes = fun j => (s.kern.label j).getD (none,0)
  sizes : ∀ j, SizeFits (s.inodes j).2
  log : s.log = []

def AcceptsAll (n : Nat) : Labels → List LogEntry → Prop
  | _,[] => True
  | labels,entry :: rest => Accepts n labels entry ∧ AcceptsAll n (relabel labels entry) rest

variable {labels : Labels} {item : Item} {blocks : List Nat} {offset fuel libfsId : Nat} {s : System}

variable {size n : Nat}

theorem acceptsAll_append {first second : List LogEntry} :
    AcceptsAll n labels (first ++ second) ↔ AcceptsAll n labels first ∧ AcceptsAll n (first.foldl relabel labels) second := by
  induction first generalizing labels with
  | nil => simp [AcceptsAll]
  | cons entry rest ih => simp only [cons_append,AcceptsAll,foldl_cons,ih,and_assoc]

-- LibFS and KernFS may differ in the type of an inode, but not in whether it has one.
def Agree (a b : Option FileType × Nat) : Prop := (a.1 = none ↔ b.1 = none) ∧ a.2 = b.2

theorem relabel_block (labels final : Labels) (item : Item) (blknr : Nat) :
    relabel labels (item.entry final blknr) = relabel labels (item.entry final 0) := by
  cases item <;> rfl

theorem accepts_block {final : Labels} (blknr : Nat) :
    Accepts n labels (item.entry final blknr) ↔ Accepts n labels (item.entry final 0) := by
  cases item <;> exact Iff.rfl

theorem blocks_irrelevant (n : Nat) (final : Labels) {items : List Item} (labels : Labels)
    (enough : blocks.length = items.length) :
    (List.zipWith (fun item blknr => item.entry final blknr) items blocks).foldl relabel labels =
        (items.map (Item.entry final 0)).foldl relabel labels ∧
      (AcceptsAll n labels (List.zipWith (fun item blknr => item.entry final blknr) items blocks) ↔
        AcceptsAll n labels (items.map (Item.entry final 0))) := by
  induction items generalizing blocks labels with
  | nil => simp
  | cons item items ih =>
    cases blocks with
    | nil => cases enough
    | cons blknr blocks =>
      obtain ⟨same,accepted⟩ := ih (relabel labels (item.entry final 0)) (Nat.succ.inj enough)
      simp only [zipWith_cons_cons,map_cons,foldl_cons,AcceptsAll,relabel_block labels final item blknr]
      exact ⟨same,and_congr (accepts_block blknr) accepted⟩

def written (items : List Item) : List Nat :=
  items.filterMap fun
    | .file inum _ _ => some inum
    | .inode _ | .unlink _ | .alloc _ _ => none

def Header.replay (h : Header) (before final : Labels) : Labels := (h.items.map (Item.entry final 0)).foldl relabel before

-- A header under way. A logged inode is copied later than data that is logged behind it, so it has at least the size
-- that this data reaches.
structure Tracks (n : Nat) (before : Labels) (h : Header) : Prop where
  live : ∀ j ∈ written h.items, (h.inodes j).1 ≠ none
  labels : ∀ j, (∀ final, Agree (h.replay before final j) (h.inodes j)) ∨
    ((h.inodes j).1 ≠ none ∧ ∃ reached ≤ (h.inodes j).2, ∀ final : Labels, (final j).1 ≠ none →
      (h.replay before final j).1 ≠ none ∧ (h.replay before final j).2 = max (final j).2 reached)
  accepted : ∀ final : Labels, (∀ item ∈ h.items, item.inum < n ∧ SizeFits (final item.inum).2) →
    (∀ j ∈ written h.items, (final j).1 ≠ none) → AcceptsAll n before (h.items.map (Item.entry final 0))

section Tracks
variable {n inum : Nat} {before : Labels} {h : Header}

theorem replay_append (items : List Item) (item : Item) (inodes final : Labels) :
    (⟨inodes,items ++ [item]⟩ : Header).replay before final =
      relabel ((⟨inodes,items⟩ : Header).replay before final) (item.entry final 0) := by
  simp [Header.replay]

theorem written_append (items : List Item) (item : Item) : written (items ++ [item]) = written items ++ written [item] :=
  filterMap_append

theorem Tracks.accepts_append (tracks : Tracks n before h) {final : Labels}
    (items : ∀ i ∈ h.items ++ [item], i.inum < n ∧ SizeFits (final i.inum).2)
    (alive : ∀ j ∈ written (h.items ++ [item]), (final j).1 ≠ none)
    (last : Accepts n (h.replay before final) (item.entry final 0)) :
    AcceptsAll n before ((h.items ++ [item]).map (Item.entry final 0)) := by
  rw [map_append,acceptsAll_append]
  refine ⟨tracks.accepted final (fun i member => items i (mem_append_left _ member)) fun j member => alive j ?_,last,trivial⟩
  rw [written_append]
  exact mem_append_left _ member

theorem Tracks.begin {inodes : Labels} (agree : ∀ j, Agree (before j) (inodes j)) : Tracks n before ⟨inodes,[]⟩ :=
  ⟨fun _ member => absurd member not_mem_nil,fun j => Or.inl fun _ => agree j,fun _ _ _ => trivial⟩

section
variable (tracks : Tracks n before h)
include tracks

theorem Tracks.others {inodes : Labels} {j : Nat}
    (kept : inodes j = h.inodes j) (framed : ∀ labels final, relabel labels (item.entry final 0) j = labels j) :
    (∀ final, Agree ((⟨inodes,h.items ++ [item]⟩ : Header).replay before final j) (inodes j)) ∨
      ((inodes j).1 ≠ none ∧ ∃ reached ≤ (inodes j).2, ∀ final : Labels, (final j).1 ≠ none →
        ((⟨inodes,h.items ++ [item]⟩ : Header).replay before final j).1 ≠ none ∧
        ((⟨inodes,h.items ++ [item]⟩ : Header).replay before final j).2 = max (final j).2 reached) := by
  rw [kept]
  simp only [replay_append,framed]
  exact tracks.labels j

theorem Tracks.addToLog (inum offset size : Nat) (live : (h.inodes inum).1 ≠ none)
    (fits : SizeFits (offset + size)) (some_ : 0 < size)
    (shape : size < gBlockSizeBytes ∨ offset % gBlockSizeBytes = 0 ∧ size % gBlockSizeBytes = 0) :
    Tracks n before (h.addToLog inum offset size) := by
  refine ⟨fun j member => ?_,fun j => ?_,fun final items alive => ?_⟩
  · by_cases own : j = inum
    · subst own
      simpa [Header.addToLog] using live
    · simp only [Header.addToLog,written_append,mem_append] at member ⊢
      rw [update_of_ne own]
      exact tracks.live j (member.resolve_right (by simp [written,own]))
  · by_cases own : j = inum
    · subst own
      unfold Header.addToLog
      simp only [replay_append,Item.entry,relabel,update_self]
      rcases tracks.labels j with same | ⟨_,reached,most,open_⟩
      · refine Or.inl fun final => ?_
        obtain ⟨type,length⟩ := same final
        exact ⟨type,congrArg (max · (offset + size)) length⟩
      · refine Or.inr ⟨live,max reached (offset + size),max_le_max_right _ most,fun final alive => ?_⟩
        obtain ⟨typed,length⟩ := open_ final alive
        refine ⟨typed,?_⟩
        change max (h.replay before final j).2 (offset + size) = _
        rw [length,max_assoc]
    · refine tracks.others (update_of_ne own _ _) fun labels final => ?_
      simp [Item.entry,relabel,own]
  · have inside : inum < n := (items (.file inum offset size) (by simp [Header.addToLog])).1
    have alive' : (final inum).1 ≠ none := alive inum (by simp [Header.addToLog,written])
    refine tracks.accepts_append items alive ⟨inside,?_,fits,some_,shape⟩
    rcases tracks.labels inum with same | ⟨_,_,_,open_⟩
    · exact fun none => live ((same final).1.mp none)
    · exact (open_ final alive').1

theorem Tracks.iupdate {itype : Option FileType} {h' : Header}
    (done : h.iupdate inum itype size = some h') : Tracks n before h' := by
  obtain ⟨typed,same⟩ := ite_none_left_eq_some.mp done
  cases same
  refine ⟨fun j member => ?_,fun j => ?_,fun final items alive => ?_⟩
  · by_cases own : j = inum
    · subst own
      simpa using typed
    · simp only [written_append,mem_append] at member ⊢
      rw [update_of_ne own]
      exact tracks.live j (member.resolve_right (by simp [written]))
  · by_cases own : j = inum
    · subst own
      refine Or.inr ⟨by simpa using typed,0,Nat.zero_le _,fun final alive => ?_⟩
      simp only [replay_append,Item.entry,relabel,update_self,max_eq_left (Nat.zero_le _),and_true]
      intro none
      exact alive (or_eq_none_iff.mp none).2
    · refine tracks.others (update_of_ne own _ _) fun labels final => ?_
      simp [Item.entry,relabel,own]
  · exact tracks.accepts_append items alive (items (.inode inum) (by simp))

theorem Tracks.idealloc (unwritten : inum ∉ written h.items) :
    Tracks n before (h.idealloc inum) := by
  refine ⟨fun j member => ?_,fun j => ?_,fun final items alive => ?_⟩
  · simp only [Header.idealloc,written_append,mem_append] at member ⊢
    have earlier := member.resolve_right (by simp [written])
    have other : j ≠ inum := by
      rintro rfl
      exact unwritten earlier
    rw [update_of_ne other]
    exact tracks.live j earlier
  · by_cases own : j = inum
    · subst own
      refine Or.inl fun final => ?_
      unfold Header.idealloc
      simp [replay_append,Item.entry,relabel,Agree]
    · refine tracks.others (update_of_ne own _ _) fun labels final => ?_
      simp [Item.entry,relabel,own]
  · exact tracks.accepts_append items alive (items (.unlink inum) (by simp [Header.idealloc])).1

theorem Tracks.commit
    (items : ∀ item ∈ h.items, item.inum < n ∧ SizeFits (h.inodes item.inum).2)
    (enough : blocks.length = h.items.length) :
    AcceptsAll n before (h.commit blocks) ∧ ∀ j, Agree ((h.commit blocks).foldl relabel before j) (h.inodes j) := by
  obtain ⟨same,accepted⟩ := blocks_irrelevant n h.inodes before enough
  refine ⟨accepted.mpr (tracks.accepted h.inodes items tracks.live),fun j => ?_⟩
  unfold Header.commit
  rw [same]
  rcases tracks.labels j with plain | ⟨live,reached,most,open_⟩
  · exact plain h.inodes
  · obtain ⟨typed,length⟩ := open_ h.inodes live
    exact ⟨⟨fun none => absurd none typed,fun none => absurd none live⟩,length.trans (max_eq_left most)⟩

end

end Tracks

def Shaped (e : FileEntry) : Prop :=
  0 < e.length ∧ (e.length < gBlockSizeBytes ∨ e.offset % gBlockSizeBytes = 0 ∧ e.length % gBlockSizeBytes = 0)

def reach (size : Nat) (entries : List FileEntry) : Nat := entries.foldl (fun m e => max m (e.offset + e.length)) size

theorem reach_append (size : Nat) (first second : List FileEntry) :
    reach size (first ++ second) = reach (reach size first) second :=
  foldl_append

theorem le_reach (size : Nat) (entries : List FileEntry) : size ≤ reach size entries := by
  induction entries generalizing size with
  | nil => exact le_refl _
  | cons e rest ih => exact (le_max_left _ _).trans (ih _)

theorem end_le_reach {e : FileEntry} (size : Nat) {entries : List FileEntry} (member : e ∈ entries) :
    e.offset + e.length ≤ reach size entries := by
  induction entries generalizing size with
  | nil => cases member
  | cons first rest ih =>
    rcases mem_cons.mp member with rfl | later
    · exact (le_max_right _ _).trans (le_reach _ rest)
    · exact ih _ later

theorem writeEntries_shaped (offset n : Nat) : ∀ e ∈ writeEntries offset n, Shaped e := fun e member =>
  ⟨FileWrite.writeEntries_positive offset n e member,(FileWrite.writeEntries_inBlocks offset n e member).imp_left And.left⟩

theorem alignedEntries_reach (size offset base : Nat) (sizes : List Nat) (inside : offset ≤ size) :
    reach size (alignedEntries offset base sizes) = max size (offset + sizes.sum) := by
  induction sizes generalizing size offset base with
  | nil => exact (max_eq_left inside).symm
  | cons piece rest ih =>
    have next := ih (max size (offset + piece)) (offset + piece) (base + piece) (le_max_right _ _)
    change reach (max size (offset + piece)) _ = _
    rw [next,sum_cons,max_assoc,max_eq_right (show offset + piece ≤ offset + piece + rest.sum by omega),add_assoc]

theorem writeEntries_reach (size n offset : Nat) (inside : offset ≤ size) :
    reach size (writeEntries offset n) = max size (offset + n) := by
  rw [FileWrite.writeEntries_eq,alignedEntries_reach size offset 0 _ inside,FileWrite.writeSizes_sum]

def Reaching (write : Nat → Nat → Nat → Option (Nat × List FileTx)) : Prop :=
  ∀ size n offset size' txs, write size n offset = some (size',txs) → reach size (txs.flatMap (·.entries)) = size'

theorem fill_reach {write : Nat → Nat → Nat → Option (Nat × List FileTx)} (reaching : Reaching write)
    {sizes : List Nat} {now last : Nat × Nat × List FileTx} (known : reach size (now.2.2.flatMap (·.entries)) = now.1)
    (done : sizes.foldlM (Transactions.fill write) now = some last) :
    reach size (last.2.2.flatMap (·.entries)) = last.1 := by
  induction sizes generalizing now with
  | nil =>
    cases done
    exact known
  | cons piece rest ih =>
    rw [foldlM_cons] at done
    obtain ⟨middle,first,later⟩ := bind_eq_some_iff.mp done
    obtain ⟨⟨size₂,txs₂⟩,written,rfl⟩ := map_eq_some_iff.mp first
    refine ih ?_ later
    rw [flatMap_append,reach_append,known]
    exact reaching _ _ _ _ _ written

theorem mlfsFileFallocate_reach {write : Nat → Nat → Nat → Option (Nat × List FileTx)} (reaching : Reaching write)
    {size len size' : Nat} {txs : List FileTx} (done : mlfsFileFallocate write size offset len = some (size',txs)) :
    reach size (txs.flatMap (·.entries)) = size' := by
  by_cases inside : offset ≤ size
  · by_cases longer : size < offset + len
    · rw [Transactions.mlfsFileFallocate_fill write inside longer] at done
      obtain ⟨last,filled,same⟩ := map_eq_some_iff.mp done
      cases same
      exact fill_reach reaching rfl filled
    · unfold mlfsFileFallocate at done
      rw [if_neg (not_lt.mpr inside),if_neg longer] at done
      cases done
      rfl
  · unfold mlfsFileFallocate at done
    rw [if_pos (Nat.lt_of_not_le inside)] at done
    cases done

def ShapedTx (tx : FileTx) : Prop := ∀ e ∈ tx.entries, Shaped e

theorem mlfsFileWrite_entries {zeros : Bool} {size n size' : Nat} {txs : List FileTx}
    (done : mlfsFileWrite fuel zeros size n offset = some (size',txs)) :
    (∀ tx ∈ txs, ShapedTx tx) ∧ reach size (txs.flatMap (·.entries)) = size' := by
  induction fuel generalizing zeros size n offset size' txs with
  | zero => cases done
  | succ fuel ih =>
    unfold mlfsFileWrite at done
    split at done
    · obtain ⟨⟨size₁,txs₁⟩,extended,rest⟩ := bind_eq_some_iff.mp done
      obtain ⟨⟨size₂,txs₂⟩,written,same⟩ := map_eq_some_iff.mp rest
      cases same
      obtain ⟨_,shaped₁⟩ := Transactions.mlfsFileFallocate_mono (fun _ _ _ _ _ nested => ⟨nested,(ih nested).1⟩) extended
      obtain ⟨shaped₂,reached₂⟩ := ih written
      refine ⟨fun tx member => (mem_append.mp member).elim (shaped₁ tx) (shaped₂ tx),?_⟩
      rw [flatMap_append,reach_append,mlfsFileFallocate_reach (fun _ _ _ _ _ nested => (ih nested).2) extended]
      exact reached₂
    · rename_i inside
      obtain ⟨⟨size₁,tx⟩,written,same⟩ := map_eq_some_iff.mp done
      cases same
      unfold OpenFiles.writeTx at written
      dsimp only at written
      split at written
      · cases written
      · cases written
        refine ⟨fun tx member => ?_,?_⟩
        · cases mem_singleton.mp member
          exact writeEntries_shaped offset n
        · simp only [flatMap_cons,flatMap_nil,append_nil]
          rw [writeEntries_reach size n offset (Nat.le_of_not_lt inside)]
          split <;> omega

section Calls
variable {n inum : Nat} {before inodes : Labels} {h h' : Header}

theorem addEntries_label (h : Header) (inum : Nat) (entries : List FileEntry) :
    (h.addEntries inum entries).inodes inum = ((h.inodes inum).1,reach (h.inodes inum).2 entries) ∧
      ∀ e ∈ entries, Item.file inum e.offset e.length ∈ (h.addEntries inum entries).items := by
  have keeps : ∀ (entries : List FileEntry) (h : Header) (item : Item), item ∈ h.items →
      item ∈ (h.addEntries inum entries).items := by
    intro entries
    induction entries with
    | nil => exact fun _ _ member => member
    | cons e rest ih => exact fun h item member => ih (h.addToLog inum e.offset e.length) item (mem_append_left _ member)
  induction entries generalizing h with
  | nil => exact ⟨rfl,fun _ member => absurd member not_mem_nil⟩
  | cons first rest ih =>
    obtain ⟨label,items⟩ := ih (h.addToLog inum first.offset first.length)
    refine ⟨?_,fun e member => ?_⟩
    · change ((h.addToLog inum first.offset first.length).addEntries inum rest).inodes inum = _
      rw [label]
      simp only [Header.addToLog,update_self]
      rfl
    · rcases mem_cons.mp member with rfl | later
      · exact keeps rest (h.addToLog inum e.offset e.length) _ (by simp [Header.addToLog])
      · exact items e later

theorem Tracks.addEntries {entries : List FileEntry} (tracks : Tracks n before h) (live : (h.inodes inum).1 ≠ none)
    (shaped : ∀ e ∈ entries, Shaped e) (fits : ∀ e ∈ entries, SizeFits (e.offset + e.length)) :
    Tracks n before (h.addEntries inum entries) := by
  induction entries generalizing h with
  | nil => exact tracks
  | cons first rest ih =>
    obtain ⟨positive,shape⟩ := shaped first mem_cons_self
    have next := tracks.addToLog inum first.offset first.length live (fits first mem_cons_self) positive shape
    refine ih next ?_ (fun e member => shaped e (mem_cons_of_mem _ member))
      (fun e member => fits e (mem_cons_of_mem _ member))
    simpa [Header.addToLog] using live

variable {dir slot : Nat}

theorem Tracks.dirAddEntry (tracks : Tracks n before h) (live : (h.inodes dir).1 ≠ none)
    (fits : ∀ item ∈ (h.dirAddEntry dir).items, item.inum < n ∧ SizeFits ((h.dirAddEntry dir).inodes item.inum).2) :
    Tracks n before (h.dirAddEntry dir) := by
  have last := (fits (.file dir (h.inodes dir).2 direntSize) (by simp [Header.dirAddEntry,Header.addToLog])).2
  simp only [Item.inum,Header.dirAddEntry,Header.addToLog,update_self] at last
  exact tracks.addToLog dir _ direntSize live (last.mono (le_max_right _ _)) (by decide) (Or.inl (by decide))

structure NameRemoved (n : Nat) (before : Labels) (h : Header) (dir : Nat) (h' : Header) : Prop where
  tracks : Tracks n before h'
  live : (h'.inodes dir).1 ≠ none
  others : ∀ j, j ≠ dir → h'.inodes j = h.inodes j
  written : ∀ j ∈ written h'.items, j ∈ written h.items ∨ j = dir
  sizes : ∀ j, SizeFits (h'.inodes j).2

theorem Tracks.dirRemoveEntry (tracks : Tracks n before h) (sizes : ∀ j, SizeFits (h.inodes j).2)
    (done : h.dirRemoveEntry dir slot = some h') : NameRemoved n before h dir h' := by
  obtain ⟨found,truncated⟩ := ite_none_right_eq_some.mp done
  dsimp only at truncated
  have last : SizeFits ((h.inodes dir).2 - direntSize) := (sizes dir).mono (Nat.sub_le _ _)
  split at truncated
  · obtain ⟨typed,same⟩ := ite_none_left_eq_some.mp truncated
    have live : (h.inodes dir).1 ≠ none := by simpa [Header.addToLog] using typed
    have moved := tracks.addToLog dir slot direntSize live ((sizes dir).mono found) (by decide) (Or.inl (by decide))
    refine ⟨moved.iupdate truncated,?_,?_,?_,?_⟩ <;> cases same
    · simpa using typed
    · intro j other
      simp [Header.addToLog,other]
    · intro j member
      simp only [Header.addToLog,written_append,mem_append] at member
      rcases member with (earlier | own) | none
      · exact Or.inl earlier
      · exact Or.inr (by simpa [written] using own)
      · simp [written] at none
    · intro j
      by_cases own : j = dir
      · subst own
        simpa using last
      · simpa [Header.addToLog,own] using sizes j
  · obtain ⟨typed,same⟩ := ite_none_left_eq_some.mp truncated
    refine ⟨tracks.iupdate truncated,?_,?_,?_,?_⟩ <;> cases same
    · simpa using typed
    · intro j other
      simp [other]
    · intro j member
      simp only [written_append,mem_append] at member
      exact Or.inl (member.resolve_right (by simp [written]))
    · intro j
      by_cases own : j = dir
      · subst own
        simpa using last
      · simpa [own] using sizes j

theorem lookedUp_parts (done : lookedUp inodes inum = some h) : (inodes inum).1 ≠ none ∧ h = ⟨inodes,[]⟩ := by
  obtain ⟨live,same⟩ := ite_none_left_eq_some.mp done
  exact ⟨live,(Option.some.inj same).symm⟩

theorem iupdate_parts {itype : Option FileType} (done : h.iupdate inum itype size = some h') :
    itype ≠ none ∧ h' = ⟨update h.inodes inum (itype,size),h.items ++ [.inode inum]⟩ := by
  obtain ⟨typed,same⟩ := ite_none_left_eq_some.mp done
  exact ⟨typed,(Option.some.inj same).symm⟩

def ItemsFit (n : Nat) (h : Header) : Prop := ∀ item ∈ h.items, item.inum < n ∧ SizeFits (h.inodes item.inum).2

theorem create_tracks {type : FileType} {parent : Nat} (begun : Tracks n before ⟨inodes,[]⟩) (fit : ItemsFit n h)
    (done : mlfsObjectCreate inodes type inum parent = some h) : Tracks n before h := by
  obtain ⟨h₀,found,done⟩ := bind_eq_some_iff.mp done
  obtain ⟨live,rfl⟩ := lookedUp_parts found
  obtain ⟨free,done⟩ := ite_none_left_eq_some.mp done
  obtain ⟨h₁,made,done⟩ := bind_eq_some_iff.mp done
  have other : parent ≠ inum := by
    rintro rfl
    exact free live
  have tracks₁ := begun.iupdate made
  obtain ⟨_,rfl⟩ := iupdate_parts made
  split at done
  · -- The links of a new directory are its first data; then the parent is logged.
    obtain ⟨h₃,counted,done⟩ := map_eq_some_iff.mp done
    subst done
    have tracks₂ := tracks₁.addToLog inum 0 (direntSize * 2) (by simp) (by decide) (by decide)
      (Or.inl (by decide))
    have tracks₃ := tracks₂.iupdate counted
    obtain ⟨typed,rfl⟩ := iupdate_parts counted
    exact tracks₃.dirAddEntry (by simpa using typed) fit
  · cases done
    exact tracks₁.dirAddEntry (by simpa [other] using live) fit

theorem unlink_tracks (begun : Tracks n before ⟨inodes,[]⟩) (sizes : ∀ j, SizeFits (inodes j).2)
    (other : inum ≠ dir) (done : mlfsPosixUnlink inodes dir slot inum = some h) : Tracks n before h := by
  obtain ⟨h₀,found,done⟩ := bind_eq_some_iff.mp done
  obtain ⟨_,rfl⟩ := lookedUp_parts found
  obtain ⟨h₁,removed,rfl⟩ := map_eq_some_iff.mp done
  have result := begun.dirRemoveEntry sizes removed
  refine result.tracks.idealloc fun member => ?_
  rcases result.written inum member with earlier | own
  · cases earlier
  · exact other own

theorem removeTarget_tracks {newDir : Nat} {target : Option (Nat × Nat)} (begun : Tracks n before ⟨inodes,[]⟩)
    (sizes : ∀ j, SizeFits (inodes j).2) (live : (inodes newDir).1 ≠ none) (other : ∀ t ∈ target, t.2 ≠ newDir)
    (done : removeTarget ⟨inodes,[]⟩ newDir target = some h) :
    Tracks n before h ∧ (h.inodes newDir).1 ≠ none ∧ ∀ j, SizeFits (h.inodes j).2 := by
  cases target with
  | none =>
    cases done
    exact ⟨begun,live,sizes⟩
  | some target =>
    obtain ⟨slot,inum⟩ := target
    obtain ⟨h₁,removed,rfl⟩ := map_eq_some_iff.mp done
    have result := begun.dirRemoveEntry sizes removed
    have apart : inum ≠ newDir := other (slot,inum) rfl
    refine ⟨result.tracks.idealloc fun member => ?_,?_,fun j => ?_⟩
    · rcases result.written inum member with earlier | own
      · cases earlier
      · exact apart own
    · simpa [Header.idealloc,Ne.symm apart] using result.live
    · by_cases own : j = inum
      · subst own
        simp only [Header.idealloc,update_self]
        decide
      · simpa [Header.idealloc,own] using result.sizes j

theorem rename_tracks {target : Option (Nat × Nat)} {oldDir newDir : Nat} (begun : Tracks n before ⟨inodes,[]⟩)
    (sizes : ∀ j, SizeFits (inodes j).2) (other : ∀ t ∈ target, t.2 ≠ newDir) (fit : ItemsFit n h)
    (done : mlfsPosixRename inodes target oldDir slot newDir = some h) : Tracks n before h := by
  obtain ⟨_,_,done⟩ := bind_eq_some_iff.mp done
  obtain ⟨h₀,found,done⟩ := bind_eq_some_iff.mp done
  obtain ⟨live,rfl⟩ := lookedUp_parts found
  obtain ⟨h₁,removed,done⟩ := bind_eq_some_iff.mp done
  obtain ⟨tracks₁,live₁,sizes₁⟩ := removeTarget_tracks begun sizes live other removed
  split at done
  · obtain ⟨inside,same⟩ := ite_none_right_eq_some.mp done
    cases same
    exact tracks₁.addToLog newDir slot direntSize live₁ ((sizes₁ newDir).mono inside) (by decide) (Or.inl (by decide))
  · rename_i across
    obtain ⟨h₂,moved,rfl⟩ := map_eq_some_iff.mp done
    have result := tracks₁.dirRemoveEntry sizes₁ moved
    refine result.tracks.dirAddEntry ?_ fit
    rw [result.others newDir across]
    exact live₁

theorem fallocate_tracks {len : Nat} (agree : ∀ j, Agree (before j) (inodes j)) (live : (inodes inum).1 ≠ none)
    (longer : (inodes inum).2 < len) (fits : SizeFits len) : Tracks n before ⟨inodes,[.alloc inum len]⟩ := by
  refine ⟨fun j member => absurd member not_mem_nil,fun j => Or.inl fun _ => agree j,fun final items _ => ?_⟩
  obtain ⟨typed,length⟩ := agree inum
  refine ⟨⟨(items _ mem_cons_self).1,fun none => live (typed.mp none),?_,fits⟩,trivial⟩
  rw [length]
  exact longer

theorem write_tracks {count : Nat} (begun : Tracks n before ⟨inodes,[]⟩) (live : (inodes inum).1 ≠ none)
    (fit : ItemsFit n h) (done : mlfsPosixWrite fuel inodes inum count offset = some h) : Tracks n before h := by
  obtain ⟨_,done⟩ := ite_none_left_eq_some.mp done
  obtain ⟨⟨size,txs⟩,written,rfl⟩ := map_eq_some_iff.mp done
  obtain ⟨shaped,_⟩ := mlfsFileWrite_entries written
  obtain ⟨label,items⟩ := addEntries_label ⟨inodes,[]⟩ inum (txs.flatMap (·.entries))
  refine begun.addEntries live (fun e member => ?_) fun e member => ?_
  · obtain ⟨tx,present,inside⟩ := mem_flatMap.mp member
    exact shaped tx present e inside
  · have last := (fit _ (items e member)).2
    dsimp only [Item.inum] at last
    rw [label] at last
    exact last.mono (end_le_reach _ member)

theorem call_tracks {c : Call} (agree : ∀ j, Agree (before j) (inodes j))
    (sizes : ∀ j, SizeFits (inodes j).2) (careful : Careful fuel n inodes c) (done : call fuel inodes c = some h) :
    Tracks n before h ∧ ItemsFit n h := by
  obtain ⟨fit,careful⟩ := careful
  rw [done] at fit
  refine ⟨?_,fit⟩
  have begun : Tracks n before ⟨inodes,[]⟩ := .begin agree
  cases c with
  | create inum parent | mkdir inum parent => exact create_tracks begun fit done
  | touch inum type =>
    obtain ⟨h₀,found,updated⟩ := bind_eq_some_iff.mp done
    obtain ⟨_,rfl⟩ := lookedUp_parts found
    exact begun.iupdate updated
  | unlink dir slot inum => exact unlink_tracks begun sizes careful done
  | rename target oldDir slot newDir =>
    refine rename_tracks begun sizes (fun t member => ?_) fit done
    cases member
    exact careful
  | truncate inum length => exact begun.iupdate done
  | fallocate inum len =>
    obtain ⟨_,same⟩ := ite_none_left_eq_some.mp done
    cases same
    exact fallocate_tracks agree careful.1 careful.2.1 careful.2.2
  | write inum count offset => exact write_tracks begun careful fit done
  | lseekEnd inum offset =>
    cases careful
    cases done
    refine .begin fun j => ?_
    by_cases own : j = inum
    · subst own
      have small : (inodes j).2 < 18446744073709551616 := by
        have fits := sizes j
        unfold SizeFits extMaxBlocks gBlockSizeBytes at fits
        omega
      have nothing : Int64.toUInt64 0 = 0 := by decide
      simpa [mlfsPosixLseekEnd,nothing,Nat.mod_eq_of_lt small] using agree j
    · simpa [own] using agree j

end Calls

structure InStep (libfsId : Nat) (s : System) : Prop where
  formed : Formed s.kern
  log : ∃ labels, Labelled s.kern s.kern.inodes.length labels ∧ (∀ j, SizeFits (labels j).2) ∧
    AcceptsAll s.kern.inodes.length labels s.log ∧ ∀ j, Agree (s.log.foldl relabel labels j) (s.inodes j)
  placed : ∀ entry ∈ s.log, InOwnLog s.kern libfsId entry

theorem Start.inStep (start : Start s) (libfsId : Nat) : InStep libfsId s := by
  refine ⟨start.formed,⟨s.inodes,⟨fun j => ?_⟩,start.sizes,?_,?_⟩,?_⟩
  · rw [start.inodes]
    split
    · rename_i inside
      simp [KernFs.label,inside]
    · rename_i outside
      simp [KernFs.label,Nat.le_of_not_lt outside]
  · rw [start.log]
    trivial
  · rw [start.log]
    exact fun j => ⟨Iff.rfl,rfl⟩
  · rw [start.log]
    exact fun _ member => absurd member not_mem_nil

theorem relabels_fit {entries : List LogEntry} (sizes : ∀ j, SizeFits (labels j).2)
    (accepted : AcceptsAll n labels entries) : ∀ j, SizeFits (entries.foldl relabel labels j).2 := by
  induction entries generalizing labels with
  | nil => exact sizes
  | cons entry rest ih => exact ih (relabel_fits sizes accepted.1) accepted.2

section
variable (inStep : InStep libfsId s)
include inStep

theorem InStep.digest {entry : LogEntry} {rest : List LogEntry}
    (pending : s.log = entry :: rest) (blocks : BlocksOk s.kern libfsId entry) :
    ∃ kern, digestEntry s.kern libfsId entry = some kern ∧ InStep libfsId {s with log := rest,kern := kern} := by
  obtain ⟨labels,labelled,sizes,accepted,agree⟩ := inStep.log
  have placed := inStep.placed
  rw [pending] at accepted agree placed
  obtain ⟨kern,done,formed,logs,labelled'⟩ := digestEntry_total inStep.formed labelled sizes accepted.1
    (placed entry mem_cons_self) blocks
  refine ⟨kern,done,formed,⟨relabel labels entry,?_,relabel_fits sizes accepted.1,?_,agree⟩,
    fun later member => (placed later (mem_cons_of_mem _ member)).transfer logs⟩
  · rw [labelled'.length]
    exact labelled'
  · rw [labelled'.length]
    exact accepted.2

theorem InStep.call {c : Call} {h : Header}
    (careful : Careful fuel s.kern.inodes.length s.inodes c)
    (done : call fuel s.inodes c = some h) (enough : blocks.length = h.items.length)
    (placed : ∀ entry ∈ h.commit blocks, InOwnLog s.kern libfsId entry) :
    InStep libfsId {s with inodes := h.inodes,log := s.log ++ h.commit blocks} := by
  obtain ⟨labels,labelled,sizes,accepted,agree⟩ := inStep.log
  have fits : ∀ j, SizeFits (s.inodes j).2 := by
    intro j
    rw [←(agree j).2]
    exact relabels_fit sizes accepted j
  obtain ⟨tracks,items⟩ := call_tracks agree fits careful done
  obtain ⟨accepted',agree'⟩ := tracks.commit items enough
  refine ⟨inStep.formed,⟨labels,labelled,sizes,acceptsAll_append.mpr ⟨accepted,accepted'⟩,?_⟩,fun entry member => ?_⟩
  · rw [foldl_append]
    exact agree'
  · exact (mem_append.mp member).elim (inStep.placed entry) (placed entry)

theorem InStep.bytes {kern : KernFs} (formed : Formed kern)
    (inodes : kern.inodes = s.kern.inodes) (logs : kern.logStart = s.kern.logStart ∧ kern.logs = s.kern.logs) :
    InStep libfsId {s with kern := kern} := by
  obtain ⟨labels,labelled,rest⟩ := inStep.log
  refine ⟨formed,⟨labels,⟨fun j => ?_⟩,?_⟩,fun entry member => (inStep.placed entry member).transfer logs⟩
  · rw [KernFs.label,inodes]
    exact labelled.label j
  · dsimp only
    rw [inodes]
    exact rest

theorem InStep.step {s' : System} {action : Action}
    (ok : Ok fuel libfsId s action) (done : step fuel libfsId s action = some s') : InStep libfsId s' := by
  cases action with
  | call c blocks =>
    obtain ⟨h,called,done⟩ := bind_eq_some_iff.mp done
    obtain ⟨⟨enough,placed⟩,same⟩ := ite_none_right_eq_some.mp done
    cases same
    exact inStep.call ok called enough placed
  | persist blk offset size bytes =>
    obtain ⟨own,same⟩ := ite_none_right_eq_some.mp done
    cases same
    exact inStep.bytes (inStep.formed.transfer (inStep.formed.owned.write own offset size bytes).1 rfl rfl) rfl ⟨rfl,rfl⟩
  | digest =>
    cases pending : s.log with
    | nil => simp [Acceptance.step,pending] at done
    | cons entry rest =>
      simp only [Ok,pending] at ok
      obtain ⟨kern,digested,next⟩ := inStep.digest pending ok
      simp only [Acceptance.step,pending,digested,map_some] at done
      cases done
      exact next
  | flush rest referenced =>
    cases done
    exact inStep.bytes (inStep.formed.flush rest referenced) rfl ⟨rfl,rfl⟩

end

theorem accepted_calls_digest (fuel libfsId : Nat) (s s' : System) (actions : List Action) (start : Start s)
    (guarded : Guarded (step fuel libfsId) (Ok fuel libfsId) s actions)
    (reached : run (step fuel libfsId) s actions = some s') (entry : LogEntry) (rest : List LogEntry)
    (pending : s'.log = entry :: rest) (blocks : BlocksOk s'.kern libfsId entry) :
    ∃ s'', step fuel libfsId s' .digest = some s'' ∧ s''.log = rest := by
  have inStep : InStep libfsId s' := invariant_run (step fuel libfsId) _ (InStep libfsId)
    (fun _ _ _ known ok stepped => known.step ok stepped) s s' actions (start.inStep libfsId) guarded reached
  obtain ⟨kern,digested,_⟩ := inStep.digest pending blocks
  refine ⟨{s' with log := rest,kern := kern},?_,rfl⟩
  simp only [step,pending,digested,map_some]

instance (fuel n : Nat) (inodes : Labels) (c : Call) : Decidable (Careful fuel n inodes c) := by
  unfold Careful
  refine @instDecidableAnd _ _ ?_ ?_
  · cases call fuel inodes c <;> infer_instance
  · cases c with
    | rename target => cases target <;> infer_instance
    | _ => infer_instance

instance (fuel libfsId : Nat) (s : System) (action : Action) : Decidable (Ok fuel libfsId s action) := by
  cases action with
  | digest =>
    unfold Ok
    cases s.log <;> infer_instance
  | call | persist | flush =>
    unfold Ok
    infer_instance

def rootDevice : KernFs :=
  let fs := KernFs.emptyFiles 64 8 1000 1 4
  let fs := {fs with inodes := fs.inodes.set 0 ⟨none,0,emptyRoot⟩}
  let fs := {fs with inodes := fs.inodes.set 1 ⟨some .dir,0,emptyRoot⟩}
  let fs := {fs with inodes := fs.inodes.set 2 ⟨none,0,emptyRoot⟩}
  {fs with inodes := fs.inodes.set 3 ⟨none,0,emptyRoot⟩}

def System.new (kern : KernFs) : System := ⟨fun j => (kern.label j).getD (none,0),[],kern⟩

theorem rootDevice_start : Start (.new rootDevice) := by
  have formed : Formed (KernFs.emptyFiles 64 8 1000 1 4) := emptyFiles_formed 4 (by decide) (by decide) (by decide) (by decide)
  have relabelled : ∀ {fs : KernFs} {inum : Nat} (itype : Option FileType), Formed fs →
      fs.inodes[inum]? = some ⟨some .file,0,emptyRoot⟩ →
      Formed {fs with inodes := fs.inodes.set inum ⟨itype,0,emptyRoot⟩} :=
    fun _ formed found => formed.setInode found (Or.inl rfl)
  refine ⟨?_,rfl,fun j => ?_,rfl⟩
  · exact relabelled none (relabelled none (relabelled (some .dir) (relabelled none formed rfl) rfl) rfl) rfl
  · match j with
    | 0 | 1 | 2 | 3 => decide
    | j + 4 =>
      have outside : rootDevice.label (j + 4) = none := by
        rw [KernFs.label,getElem?_eq_none (Nat.le_add_left 4 j),map_none]
      change SizeFits ((rootDevice.label (j + 4)).getD (none,0)).2
      rw [outside]
      decide

def fileLife : List Action :=
  [.call (.create 2 1) [1001,1002],.call (.write 2 10000 0) [1003,1005],.call (.fallocate 2 20000) [1006],
    .digest,.digest,.digest,.digest,.digest,.call (.mkdir 3 1) [1007,1008,1009,1010],.call (.truncate 2 5000) [1011],
    .digest,.digest,.digest,.digest,.digest,.call (.unlink 1 0 2) [1012,1013,1014],.digest,.digest]

theorem accepted_calls_digest_removal : ∃ s s', run (step 5 0) (.new rootDevice) fileLife = some s ∧
    s.log = [.unlink 2] ∧ step 5 0 s .digest = some s' ∧ s'.log = [] := by
  have guarded : Guarded (step 5 0) (Ok 5 0) (.new rootDevice) fileLife := by decide +kernel
  obtain ⟨s,reached,pending,blocks⟩ : ∃ s, run (step 5 0) (.new rootDevice) fileLife = some s ∧ s.log = [.unlink 2] ∧
      BlocksOk s.kern 0 (.unlink 2) := by decide +kernel
  obtain ⟨s',digested,empty⟩ := accepted_calls_digest 5 0 _ s _ rootDevice_start guarded reached (.unlink 2) [] pending blocks
  exact ⟨s,s',reached,pending,digested,empty⟩

-- What is still in the log takes the inodes of KernFS to those of LibFS.
theorem kernfs_follows_libfs (fuel libfsId : Nat) (s s' : System) (actions : List Action) (start : Start s)
    (guarded : Guarded (step fuel libfsId) (Ok fuel libfsId) s actions) (reached : run (step fuel libfsId) s actions = some s') :
    ∃ labels, Labelled s'.kern s'.kern.inodes.length labels ∧ ∀ j, Agree (s'.log.foldl relabel labels j) (s'.inodes j) := by
  have inStep : InStep libfsId s' := invariant_run (step fuel libfsId) _ (InStep libfsId)
    (fun _ _ _ known ok stepped => known.step ok stepped) s s' actions (start.inStep libfsId) guarded reached
  obtain ⟨labels,labelled,_,_,agree⟩ := inStep.log
  exact ⟨labels,labelled,agree⟩

theorem kernfs_follows_libfs_removal : ∃ s, run (step 5 0) (.new rootDevice) fileLife = some s ∧
    ∃ labels, Labelled s.kern s.kern.inodes.length labels ∧ ∀ j, Agree (s.log.foldl relabel labels j) (s.inodes j) := by
  refine (isSome_iff_exists.mp (by decide +kernel)).imp fun s reached => ⟨reached,?_⟩
  exact kernfs_follows_libfs 5 0 _ s _ rootDevice_start (by decide +kernel) reached

-- A file of one block is given the size it has: LibFS accepts the call, KernFS has 562747 blocks free and panics.
theorem fallocate_to_same_size_stops_digest :
    ∃ s, run (step 5 0) (.new (KernFs.emptyFiles 589854 27106 616960 5 2))
      [.call (.write 1 4096 0) [616970],.call (.fallocate 1 4096) [616971],.digest] = some s ∧
      s.log = [.alloc 1 4096] ∧ s.kern.sb.freeLists.map (·.numFreeBlocks) = [562747] ∧
      Contiguous s.kern 1 (allocateLength 4096) ∧ step 5 0 s .digest = none := by decide +kernel

end Assise.Acceptance
