import Assise.Layout

-- Inode numbers. Every LibFS process searches its own copy of the inode bitmap, from the start of the slice that its id
-- selects.
namespace Assise.InodeNumbers

open Lib.Runs Bitmap Layout Option Function
open Mkfs (ninodes gNMaxLibfs)

def rootino : Nat := 1

-- `icache` holds the flag `I_DELETING` of each inode in memory. `created` lists the numbers that `icreate` returned
-- to this process and that were not deallocated since.
structure LibFS where
  inodeBitmap : Nat → Bool
  icache : Nat → Option Bool
  created : List Nat

-- `peerBitmap` is KernFS's: the ids in use, those of the KernFS nodes first.
structure State where
  peerBitmap : Nat → Bool
  libfs : Nat → Option LibFS

inductive Action where
  | register (inUse : Nat → Bool)
  | unregister (id : Nat)
  | icreate (id : Nat)
  | iget (id inum : Nat)
  | idealloc (id inum : Nat)
  | persistLogInode (id inum : Nat)

def ialloc (p : LibFS) (inum : Nat) : LibFS :=
  {p with inodeBitmap := bitmapSet p.inodeBitmap inum 1,icache := update p.icache inum (some false)}

def readSuperblock (inUse : Nat → Bool) : LibFS :=
  ialloc ⟨fun inum => decide (1 ≤ inum ∧ inum < ninodes) && inUse inum,fun _ => none,[]⟩ rootino

def sliceStart (gSelfId : Nat) : Nat := gSelfId * ninodes / gNMaxLibfs

def icreate (gSelfId : Nat) (p : LibFS) : LibFS :=
  let inum := findNextZeroBit p.inodeBitmap ninodes (sliceStart gSelfId)
  {ialloc p inum with created := inum :: p.created}

def iget (p : LibFS) (inum : Nat) : LibFS :=
  match p.icache inum with
  | some _ => p
  | none => ialloc p inum

def forget (inum : Nat) (p : LibFS) : LibFS := {p with created := p.created.filter (· ≠ inum)}

-- `idealloc` marks the inode; its bit is cleared when the transaction is written to the log.
def markDeleting (inum : Nat) (p : LibFS) : LibFS := {p with icache := update p.icache inum (some true)}

def persistLogInode (p : LibFS) (inum : Nat) : LibFS :=
  if p.icache inum = some true then {p with inodeBitmap := withoutRange p.inodeBitmap inum (inum + 1)} else p

def setLibfs (s : State) (id : Nat) (p : LibFS) : State := {s with libfs := update s.libfs id (some p)}

def step (gNNodes : Nat) (s : State) : Action → Option State
  | .register inUse =>
    (registerPeerLog gNNodes s.peerBitmap none).map fun (idx,peerBitmap) =>
      ⟨peerBitmap,update s.libfs idx (some (readSuperblock inUse))⟩
  | .unregister id =>
    (s.libfs id).map fun _ => ⟨withoutRange s.peerBitmap id (id + 1),update s.libfs id none⟩
  | .icreate id => (s.libfs id).map fun p => setLibfs s id (icreate id p)
  | .iget id inum => (s.libfs id).map fun p => setLibfs s id (iget p inum)
  | .idealloc id inum =>
    (s.libfs id).bind fun p => (p.icache inum).map fun _ =>
      let marked := setLibfs s id (markDeleting inum p)
      {marked with libfs := fun j => (marked.libfs j).map (forget inum)}
  | .persistLogInode id inum => (s.libfs id).map fun p => setLibfs s id (persistLogInode p inum)

def initial (gNNodes : Nat) : State := ⟨fun id => decide (id < gNNodes),fun _ => none⟩

structure NumbersApart (s : State) : Prop where
  valid : ∀ id p, s.libfs id = some p → ∀ inum ∈ p.created, inum < ninodes
  own : ∀ id p, s.libfs id = some p → p.created.Nodup
  apart : ∀ i j p q, i ≠ j → s.libfs i = some p → s.libfs j = some q → ∀ inum ∈ p.created, inum ∉ q.created

def Slice (id inum : Nat) : Prop := sliceStart id ≤ inum ∧ inum < sliceStart (id + 1)

def RoomInSlice (s : State) : Action → Prop
  | .icreate id => ∀ p, s.libfs id = some p → id < gNMaxLibfs ∧ ∃ inum, Slice id inum ∧ p.inodeBitmap inum = false
  | _ => True

theorem sliceStart_eq (id : Nat) : sliceStart id = 75000 * id := by
  unfold sliceStart ninodes gNMaxLibfs
  omega

variable {inum id : Nat} {p : LibFS}

theorem slice_unique {i j : Nat} (left : Slice i inum) (right : Slice j inum) : i = j := by
  simp only [Slice,sliceStart_eq] at left right
  omega

theorem slice_valid (low : id < gNMaxLibfs) (slice : Slice id inum) : inum < ninodes := by
  simp only [Slice,sliceStart_eq] at slice
  simp only [gNMaxLibfs] at low
  simp only [ninodes]
  omega

structure Owned (id : Nat) (p : LibFS) : Prop where
  distinct : p.created.Nodup
  low : ∀ inum ∈ p.created, id < gNMaxLibfs
  slice : ∀ inum ∈ p.created, Slice id inum
  marked : ∀ inum ∈ p.created, p.inodeBitmap inum = true
  alive : ∀ inum ∈ p.created, p.icache inum = some false

def Inv (s : State) : Prop := ∀ id p, s.libfs id = some p → Owned id p

theorem Inv.apart {s : State} (inv : Inv s) : NumbersApart s where
  valid id p found inum live := by
    have owned := inv id p found
    exact slice_valid (owned.low inum live) (owned.slice inum live)
  own id p found := (inv id p found).distinct
  apart i j p q different left right inum live other := by
    apply different
    exact slice_unique ((inv i p left).slice inum live) ((inv j q right).slice inum other)

theorem ialloc_bit (p : LibFS) (inum i : Nat) :
    (ialloc p inum).inodeBitmap i = true ↔ p.inodeBitmap i = true ∨ i = inum % 2 ^ 32 := by
  rw [ialloc,bitmapSet_range _ _ (by decide),withRange_bit]
  exact or_congr_right (by omega)

theorem Owned.ialloc (owned : Owned id p) (inum : Nat) : Owned id (ialloc p inum) where
  distinct := owned.distinct
  low := owned.low
  slice := owned.slice
  marked i live := (ialloc_bit p inum i).mpr (.inl (owned.marked i live))
  alive i live := by
    by_cases same : i = inum
    · subst same
      exact update_self ..
    · exact (update_of_ne same ..).trans (owned.alive i live)

theorem search_in_slice (low : id < gNMaxLibfs) {free : Nat} (slice : Slice id free)
    (clear : p.inodeBitmap free = false) :
    Slice id (findNextZeroBit p.inodeBitmap ninodes (sliceStart id)) ∧
      p.inodeBitmap (findNextZeroBit p.inodeBitmap ninodes (sliceStart id)) = false := by
  have valid := slice_valid low slice
  have found := findNextZeroBit_spec p.inodeBitmap (lt_of_le_of_lt slice.1 valid)
  generalize findNextZeroBit p.inodeBitmap ninodes (sliceStart id) = inum at found
  have before : inum ≤ free := by
    by_contra beyond
    have set := found.passed free slice.1 (Nat.lt_of_not_le beyond)
    rw [clear] at set
    cases set
  obtain ⟨above,zero⟩ := found.zero (lt_of_le_of_lt before valid)
  exact ⟨⟨above,lt_of_le_of_lt before slice.2⟩,zero⟩

section
variable (owned : Owned id p)
include owned

theorem Owned.create (low : id < gNMaxLibfs) (inside : Slice id inum)
    (zero : p.inodeBitmap inum = false) :
    Owned id {InodeNumbers.ialloc p inum with created := inum :: p.created} := by
  have kept := owned.ialloc inum
  refine ⟨?_,fun _ _ => low,?_,?_,?_⟩
  · refine List.nodup_cons.mpr ⟨fun live => ?_,owned.distinct⟩
    have set := owned.marked inum live
    rw [zero] at set
    cases set
  · intro i live
    rcases List.mem_cons.mp live with rfl | old
    · exact inside
    · exact owned.slice i old
  · intro i live
    rcases List.mem_cons.mp live with rfl | old
    · have small : i < 300000 := slice_valid low inside
      exact (ialloc_bit p i i).mpr (.inr (by omega))
    · exact kept.marked i old
  · intro i live
    rcases List.mem_cons.mp live with rfl | old
    · exact update_self ..
    · exact kept.alive i old

theorem Owned.icreate (low : id < gNMaxLibfs) {free : Nat}
    (slice : Slice id free) (clear : p.inodeBitmap free = false) : Owned id (icreate id p) := by
  obtain ⟨inside,zero⟩ := search_in_slice low slice clear
  exact owned.create low inside zero

theorem Owned.iget (inum : Nat) : Owned id (iget p inum) := by
  unfold InodeNumbers.iget
  cases p.icache inum with
  | some flag => exact owned
  | none => exact owned.ialloc inum

theorem Owned.forget {q : LibFS} (inum : Nat) (created : q.created = p.created)
    (bits : q.inodeBitmap = p.inodeBitmap) (others : ∀ i, i ≠ inum → q.icache i = p.icache i) :
    Owned id (forget inum q) := by
  have kept : ∀ i ∈ (InodeNumbers.forget inum q).created, i ∈ p.created ∧ i ≠ inum := by
    intro i live
    simpa [InodeNumbers.forget,created] using live
  refine ⟨?_,fun i live => owned.low i (kept i live).1,fun i live => owned.slice i (kept i live).1,?_,?_⟩
  · simp only [InodeNumbers.forget,created]
    exact owned.distinct.filter _
  · intro i live
    exact (congrFun bits i).trans (owned.marked i (kept i live).1)
  · intro i live
    exact (others i (kept i live).2).trans (owned.alive i (kept i live).1)

theorem Owned.persist (inum : Nat) : Owned id (persistLogInode p inum) := by
  unfold persistLogInode
  split
  · rename_i deleting
    refine ⟨owned.distinct,owned.low,owned.slice,?_,owned.alive⟩
    intro i live
    have alive := owned.alive i live
    refine withoutRange_bit.mpr ⟨owned.marked i live,fun hit => ?_⟩
    have same : i = inum := by omega
    rw [same,deleting] at alive
    cases alive
  · exact owned

theorem Inv.setLibfs {s : State} (inv : Inv s) : Inv (setLibfs s id p) := by
  intro j q found
  by_cases same : j = id
  · subst same
    simp only [InodeNumbers.setLibfs,update_self,Option.some.injEq] at found
    exact found ▸ owned
  · simp only [InodeNumbers.setLibfs,update_of_ne same] at found
    exact inv j q found

end

theorem fresh_owned (id : Nat) (inUse : Nat → Bool) : Owned id (readSuperblock inUse) := by
  refine ⟨.nil,?_,?_,?_,?_⟩ <;> intro inum live <;> cases live

theorem step_inv (gNNodes : Nat) (s : State) (action : Action) (next : State) (inv : Inv s)
    (room : RoomInSlice s action) (stepped : step gNNodes s action = some next) : Inv next := by
  cases action with
  | register inUse =>
    obtain ⟨⟨idx,peers⟩,_,rfl⟩ := map_eq_some_iff.mp stepped
    exact inv.setLibfs (fresh_owned idx inUse)
  | unregister id =>
    obtain ⟨p,_,rfl⟩ := map_eq_some_iff.mp stepped
    intro j q found
    by_cases same : j = id
    · subst same
      simp at found
    · simp only [update_of_ne same] at found
      exact inv j q found
  | icreate id =>
    obtain ⟨p,found,rfl⟩ := map_eq_some_iff.mp stepped
    obtain ⟨low,free,slice,clear⟩ := room p found
    exact inv.setLibfs ((inv id p found).icreate low slice clear)
  | iget id inum =>
    obtain ⟨p,found,rfl⟩ := map_eq_some_iff.mp stepped
    exact inv.setLibfs ((inv id p found).iget inum)
  | idealloc id inum =>
    obtain ⟨p,found,cached⟩ := bind_eq_some_iff.mp stepped
    obtain ⟨_,_,rfl⟩ := map_eq_some_iff.mp cached
    intro j q held
    obtain ⟨r,marked,rfl⟩ := map_eq_some_iff.mp held
    by_cases same : j = id
    · subst same
      simp only [setLibfs,update_self,Option.some.injEq] at marked
      subst marked
      exact (inv j p found).forget inum rfl rfl fun i other => update_of_ne other ..
    · simp only [setLibfs,update_of_ne same] at marked
      exact (inv j r marked).forget inum rfl rfl fun _ _ => rfl
  | persistLogInode id inum =>
    obtain ⟨p,found,rfl⟩ := map_eq_some_iff.mp stepped
    exact inv.setLibfs ((inv id p found).persist inum)

theorem created_numbers_apart (gNNodes : Nat) (actions : List Action) (s : State)
    (room : Guarded (step gNNodes) RoomInSlice (initial gNNodes) actions)
    (ran : run (step gNNodes) (initial gNNodes) actions = some s) : NumbersApart s := by
  have empty : Inv (initial gNNodes) := fun _ _ found => nomatch found
  exact (invariant_run (step gNNodes) RoomInSlice Inv (step_inv gNNodes) _ s actions empty room ran).apart

theorem room_iff (p : LibFS) (low : id < gNMaxLibfs) :
    (∃ inum, Slice id inum ∧ p.inodeBitmap inum = false) ↔
      findNextZeroBit p.inodeBitmap ninodes (sliceStart id) < sliceStart (id + 1) := by
  constructor
  · rintro ⟨free,slice,clear⟩
    exact (search_in_slice low slice clear).1.2
  · intro below
    have inside : sliceStart (id + 1) ≤ ninodes := by
      simp only [sliceStart_eq,ninodes]
      simp only [gNMaxLibfs] at low
      omega
    have start : sliceStart id < ninodes := by
      simp only [sliceStart_eq] at inside ⊢
      omega
    obtain ⟨above,zero⟩ := (findNextZeroBit_spec p.inodeBitmap start).zero (lt_of_lt_of_le below inside)
    exact ⟨_,⟨above,below⟩,zero⟩

instance (s : State) (action : Action) : Decidable (RoomInSlice s action) :=
  match action with
  | .icreate id =>
    match found : s.libfs id with
    | none => .isTrue fun p other => (by rw [found] at other; cases other)
    | some p =>
      if low : id < gNMaxLibfs then
        decidable_of_iff (findNextZeroBit p.inodeBitmap ninodes (sliceStart id) < sliceStart (id + 1)) (by
          rw [← room_iff p low]
          constructor
          · intro room q other
            rw [found] at other
            cases other
            exact ⟨low,room⟩
          · intro room
            exact (room p found).2)
      else .isFalse fun room => low (room p found).1
  | .register _ | .unregister _ | .iget _ _ | .idealloc _ _ | .persistLogInode _ _ => .isTrue trivial

def noneInUse : Nat → Bool := fun _ => false

def deletedByOther : List Action :=
  [.register noneInUse,.register noneInUse,.icreate 1,.icreate 2,.iget 2 75000,.idealloc 2 75000,
    .persistLogInode 2 75000,.icreate 1]

theorem created_numbers_apart_deleted :
    ∃ s, run (step 1) (initial 1) deletedByOther = some s ∧ Guarded (step 1) RoomInSlice (initial 1) deletedByOther ∧
      NumbersApart s ∧ (s.libfs 1).map LibFS.created = some [75001] ∧ (s.libfs 2).map LibFS.created = some [150000] := by
  have room : Guarded (step 1) RoomInSlice (initial 1) deletedByOther := by decide +kernel
  obtain ⟨s,ran,facts⟩ : ∃ s, run (step 1) (initial 1) deletedByOther = some s ∧
      (s.libfs 1).map LibFS.created = some [75001] ∧ (s.libfs 2).map LibFS.created = some [150000] := by decide +kernel
  exact ⟨s,ran,room,created_numbers_apart 1 deletedByOther s room ran,facts⟩

-- The fourth process of one node gets id 4: its slice starts behind the last inode, and every creation returns
-- 300000.
theorem fourth_process_gets_no_slice :
    ∃ s, run (step 1) (initial 1)
        (List.replicate 4 (.register noneInUse) ++ [.icreate 4,.icreate 4]) = some s ∧
      (s.libfs 4).map LibFS.created = some [300000,300000] ∧ ¬ NumbersApart s := by
  obtain ⟨s,ran,created⟩ : ∃ s, run (step 1) (initial 1)
      (List.replicate 4 (.register noneInUse) ++ [.icreate 4,.icreate 4]) = some s ∧
        (s.libfs 4).map LibFS.created = some [300000,300000] := by decide +kernel
  refine ⟨s,ran,created,fun apart => ?_⟩
  obtain ⟨p,held,list⟩ := map_eq_some_iff.mp created
  have valid := apart.valid 4 p held 300000 (by simp [list])
  exact absurd valid (by decide)

end Assise.InodeNumbers
