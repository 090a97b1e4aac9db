import Assise.Bitmap
import Assise.Mkfs

-- The regions `mkfs` divides the root device into, and the blocks that are addressed in them: inodes, leases, bits of
-- the block bitmap and logs.
namespace Assise.Layout

open Mkfs MapTable Bitmap
open LogRing (gLogSize)

structure Region where
  start : Nat
  blocks : Nat
deriving DecidableEq, Repr

def Region.stop (r : Region) : Nat := r.start + r.blocks
def Region.Holds (r : Region) (b : Nat) : Prop := r.start ≤ b ∧ b < r.stop
def Region.Apart (r s : Region) : Prop := ∀ b, r.Holds b → ¬ s.Holds b

instance (r : Region) (b : Nat) : Decidable (r.Holds b) := by
  unfold Region.Holds
  infer_instance

def ipb : Nat := gBlockSizeBytes / sizeofDinode
def lpb : Nat := gBlockSizeBytes / sizeofLease
def bpb : Nat := gBlockSizeBytes * 8

def ninodeblocks : Nat := ninodes / ipb + 1
def leaseblocks : Nat := ninodes / lpb + 1
def logSizeBlks (gNNodes : Nat) : Nat := gLogSize * (gNMaxLibfs + gNNodes) + 1024

-- The other fields of the superblock that place something, and the bitmap blocks `mkfs` counts in a 32-bit variable.
structure Placement extends DiskSuperblock where
  nlog : Nat
  inodeStart : Nat
  leaseStart : Nat
  bmapStart : Nat
  nbitmap : Nat
deriving DecidableEq, Repr

def placement (gNNodes devSize : Nat) : Option Placement :=
  (mkfs gNNodes devSize).map fun sb =>
    { sb with
      nlog := logSizeBlks gNNodes
      inodeStart := 2
      leaseStart := 2 + ninodeblocks
      bmapStart := 2 + ninodeblocks + leaseblocks
      nbitmap := (sb.size / bpb + 1) % 2 ^ 32 }

def Placement.inodes (sb : Placement) : Region := ⟨sb.inodeStart,ninodeblocks⟩
def Placement.leases (sb : Placement) : Region := ⟨sb.leaseStart,leaseblocks⟩
def Placement.bitmap (sb : Placement) : Region := ⟨sb.bmapStart,sb.nbitmap⟩
def Placement.data (sb : Placement) : Region := ⟨sb.datablockStart,sb.ndatablocks⟩
def Placement.log (sb : Placement) : Region := ⟨sb.logStart,sb.nlog⟩
def Placement.mapTable (sb : Placement) : Region := ⟨sb.mapTableStart,sb.nmapblocks⟩

def Placement.regions (sb : Placement) : List Region :=
  [sb.inodes,sb.leases,sb.bitmap,sb.data,sb.log,sb.mapTable]

def getInodeBlock (sb : Placement) (inum : Nat) : Nat := inum / ipb + sb.inodeStart
def getLeaseBlock (sb : Placement) (inum : Nat) : Nat := inum / lpb + sb.leaseStart
def bblock (sb : Placement) (b : Nat) : Nat := b / bpb + sb.bmapStart

-- `register_peer_log`: the id is given or the first that is free; too large an id, compared in 32 bits, panics.
def registerPeerLog (gNNodes : Nat) (peerBitmap : Nat → Bool) (given : Option Nat) : Option (Nat × (Nat → Bool)) :=
  let idx := given.getD (findFirstZeroBit peerBitmap (gNMaxLibfs + gNNodes))
  if (gNMaxLibfs + gNNodes) % 2 ^ 32 ≤ idx then none else some (idx,bitmapSet peerBitmap idx 1)

variable {gNNodes devSize : Nat} {sb : Placement}

theorem registerPeerLog_id {idx : Nat} {peerBitmap after : Nat → Bool} {given : Option Nat}
    (accepted : registerPeerLog gNNodes peerBitmap given = some (idx,after)) : idx < (gNMaxLibfs + gNNodes) % 2 ^ 32 := by
  unfold registerPeerLog at accepted
  dsimp only at accepted
  split at accepted
  · cases accepted
  · cases accepted
    omega

def initLog (sb : Placement) (gSelfId : Nat) (area : LogRing.LogArea) : LogRing.State :=
  LogRing.initLog (sb.logStart + gSelfId * gLogSize) area

def LogBlock (sb : Placement) (gSelfId : Nat) (b : Nat) : Prop :=
  ∀ area, (initLog sb gSelfId area).logSbBlk ≤ b ∧ b < (initLog sb gSelfId area).size

structure WellPlaced (gNNodes devSize : Nat) (sb : Placement) : Prop where
  apart : sb.regions.Pairwise Region.Apart
  inside : ∀ r ∈ sb.regions, r.stop ≤ devSize / gBlockSizeBytes
  inodes : ∀ inum < ninodes, sb.inodes.Holds (getInodeBlock sb inum)
  leases : ∀ inum < ninodes, sb.leases.Holds (getLeaseBlock sb inum)
  bits : ∀ b, sb.data.Holds b → sb.bitmap.Holds (bblock sb b)
  logs : ∀ peerBitmap given id after, registerPeerLog gNNodes peerBitmap given = some (id,after) →
    ∀ b, LogBlock sb id b → sb.log.Holds b
  ownLogs : ∀ i j b, LogBlock sb i b → LogBlock sb j b → i = j

structure Chained (gNNodes devSize : Nat) (sb : Placement) : Prop where
  inodes : sb.inodeStart = 2
  leases : sb.leaseStart = sb.inodes.stop
  bitmap : sb.bmapStart = sb.leases.stop
  data : sb.datablockStart = (sb.leases.stop + (sb.size / bpb + 1) % 2 ^ 32) % 2 ^ 32
  log : sb.logStart = sb.data.stop
  size : sb.logStart = sb.size
  some : 0 < sb.ndatablocks
  table : sb.mapTableStart = sb.log.stop
  device : sb.mapTable.stop = devSize / gBlockSizeBytes
  count : sb.nbitmap = (sb.size / bpb + 1) % 2 ^ 32
  nlog : sb.nlog = logSizeBlks gNNodes

def fileSizeBlks (gNNodes devSize : Nat) : Nat :=
  devSize / gBlockSizeBytes - logSizeBlks gNNodes - blocksFor (devSize / gBlockSizeBytes * sizeofMlfsMapBlocks)

theorem placement_chained (accepted : placement gNNodes devSize = some sb) :
    Chained gNNodes devSize sb ∧ sb.size = fileSizeBlks gNNodes devSize := by
  unfold placement at accepted
  obtain ⟨disk,made,same⟩ := Option.map_eq_some_iff.mp accepted
  have table := mkfs_table made
  unfold mkfs at made
  simp only at made
  split at made
  · cases made
  · rename_i large
    split at made
    · cases made
    · rename_i room
      cases made
      subst same
      have ends := table.ends
      simp only at ends
      simp only [not_or,not_lt,not_le] at large room
      refine ⟨⟨rfl,rfl,rfl,?_,rfl,?_,?_,?_,ends,rfl,rfl⟩,rfl⟩
      · simp only [Region.stop,Placement.leases,leaseblocks,ninodeblocks,bpb,ipb,lpb]
        congr 1
        omega
      · simp only
        omega
      · simp only
        omega
      · simp only [Region.stop,Placement.log,logSizeBlks]
        omega

def blksBeforeBitmap : Nat := 2 + ninodeblocks + leaseblocks

theorem Chained.before (chained : Chained gNNodes devSize sb) :
    sb.leases.stop = blksBeforeBitmap := by
  have start := chained.leases
  simp only [Region.stop,Placement.leases,Placement.inodes,chained.inodes] at start ⊢
  rw [start]
  rfl

def Region.Before (r s : Region) : Prop := r.stop ≤ s.start

instance : Trans Region.Before Region.Before Region.Before where
  trans {r s t} first second := by
    unfold Region.Before Region.stop at *
    omega

theorem Region.Before.apart {r s : Region} (before : r.Before s) : r.Apart s := by
  intro b left right
  unfold Region.Holds at left right
  unfold Region.Before at before
  omega

theorem holds_nth {r : Region} {n : Nat} (fits : n < r.blocks) : r.Holds (n + r.start) := by
  unfold Region.Holds Region.stop
  omega

theorem Chained.wellPlaced (chained : Chained gNNodes devSize sb)
    (narrow : blksBeforeBitmap + (sb.size / bpb + 1) < 2 ^ 32) : WellPlaced gNNodes devSize sb := by
  have before := chained.before
  have bits : sb.nbitmap = sb.size / bpb + 1 := by
    rw [chained.count]
    exact Nat.mod_eq_of_lt (by omega)
  have data : sb.datablockStart = sb.bitmap.stop := by
    rw [chained.data,← chained.count,bits,before,Nat.mod_eq_of_lt narrow]
    simp only [Region.stop,Placement.bitmap,chained.bitmap,bits,← before]
  have chain : sb.regions.IsChain Region.Before := by
    refine .cons_cons chained.leases.ge (.cons_cons chained.bitmap.ge (.cons_cons data.ge ?_))
    exact .cons_cons chained.log.ge (.cons_cons chained.table.ge (.singleton _))
  have order : sb.regions.Pairwise Region.Before := chain.pairwise
  have last : ∀ r ∈ sb.regions, r = sb.mapTable ∨ r.Before sb.mapTable := by
    intro r listed
    have whole : sb.regions = [sb.inodes,sb.leases,sb.bitmap,sb.data,sb.log] ++ [sb.mapTable] := rfl
    rw [whole] at listed order
    rcases List.mem_append.mp listed with early | final
    · exact .inr ((List.pairwise_append.mp order).2.2 r early sb.mapTable (by simp))
    · exact .inl (by simpa using final)
  refine ⟨order.imp Region.Before.apart,?_,?_,?_,?_,?_,?_⟩
  · intro r listed
    rw [← chained.device]
    rcases last r listed with rfl | early
    · exact le_refl _
    · unfold Region.Before at early
      exact early.trans (Nat.le_add_right _ _)
  · intro inum valid
    apply holds_nth
    exact Nat.lt_succ_of_le (Nat.div_le_div_right valid.le)
  · intro inum valid
    apply holds_nth
    exact Nat.lt_succ_of_le (Nat.div_le_div_right valid.le)
  · intro b held
    have below : b ≤ sb.size := by
      rw [← chained.size,chained.log]
      exact held.2.le
    apply holds_nth (r:=sb.bitmap)
    simp only [Placement.bitmap,bits]
    exact Nat.lt_succ_of_le (Nat.div_le_div_right below)
  · intro peerBitmap given id after accepted b addressed
    have bound := lt_of_lt_of_le (registerPeerLog_id accepted) (Nat.mod_le ..)
    obtain ⟨low,high⟩ := addressed fun _ => ⟨0,0⟩
    have room : (id + 1) * gLogSize ≤ (gNMaxLibfs + gNNodes) * gLogSize := Nat.mul_le_mul_right gLogSize bound
    simp only [initLog,LogRing.initLog,LogRing.State.size] at low high
    simp only [Region.Holds,Region.stop,Placement.log,chained.nlog,logSizeBlks]
    rw [add_mul] at room
    rw [mul_comm gLogSize]
    omega
  · intro i j b left right
    obtain ⟨low,high⟩ := left fun _ => ⟨0,0⟩
    obtain ⟨low',high'⟩ := right fun _ => ⟨0,0⟩
    simp only [initLog,LogRing.initLog,LogRing.State.size,gLogSize] at low high low' high'
    omega

theorem Chained.too_wide (chained : Chained gNNodes devSize sb)
    (wide : 2 ^ 32 ≤ blksBeforeBitmap + (sb.size / bpb + 1)) : ¬ WellPlaced gNNodes devSize sb := by
  intro placed
  have ends : sb.logStart = sb.datablockStart + sb.ndatablocks := chained.log
  have same := chained.size
  have some := chained.some
  have last : sb.leaseStart + leaseblocks = blksBeforeBitmap := chained.before
  have wrapped := chained.data
  rw [chained.before] at wrapped
  have count : blksBeforeBitmap = 27087 := rfl
  have leases : leaseblocks = 8334 := rfl
  simp only [bpb,gBlockSizeBytes] at wide wrapped
  rw [count] at wide wrapped last
  by_cases fits : sb.size / (4096 * 8) + 1 < 2 ^ 32
  · -- The data region starts before the last lease block and reaches beyond it.
    have apart := (List.pairwise_cons.mp (List.pairwise_cons.mp placed.apart).2).1 sb.data (by simp)
    refine apart 27086 ?_ ?_
    · simp only [Region.Holds,Region.stop,Placement.leases]
      omega
    · simp only [Region.Holds,Region.stop,Placement.data]
      omega
  · have held : sb.data.Holds (sb.size - 1) := by
      simp only [Region.Holds,Region.stop,Placement.data]
      omega
    have bit := (placed.bits _ held).2
    simp only [bblock,Region.stop,Placement.bitmap,chained.count,bpb,gBlockSizeBytes] at bit
    have cut : (sb.size / (4096 * 8) + 1) % 2 ^ 32 + 2 ^ 32 ≤ sb.size / (4096 * 8) + 1 := by
      generalize sb.size / (4096 * 8) + 1 = n at fits
      omega
    clear wrapped
    omega

theorem regions_placed_iff (gNNodes devSize : Nat) (sb : Placement) (accepted : placement gNNodes devSize = some sb) :
    WellPlaced gNNodes devSize sb ↔ blksBeforeBitmap + (fileSizeBlks gNNodes devSize / bpb + 1) < 2 ^ 32 := by
  obtain ⟨chained,size⟩ := placement_chained accepted
  rw [← size]
  constructor
  · intro placed
    by_contra wide
    exact chained.too_wide (Nat.le_of_not_lt wide) placed
  · exact chained.wellPlaced

theorem regions_placed_default : ∃ sb, placement 1 3221225472 = some sb ∧ sb.log = ⟨616960,164864⟩ ∧
    (WellPlaced 1 3221225472 sb ↔ blksBeforeBitmap + (fileSizeBlks 1 3221225472 / bpb + 1) < 2 ^ 32) :=
  ⟨_,rfl,by decide,regions_placed_iff 1 3221225472 _ rfl⟩

-- The bitmap of 2^60 bytes needs 8539602939 blocks, but the 32-bit count leaves it 4244635643.
theorem bitmap_of_1EiB_cut : ∃ sb, placement 1 (2 ^ 60) = some sb ∧ sb.data.Holds (sb.size - 1) ∧
    sb.data.Holds (bblock sb (sb.size - 1)) ∧ ¬ WellPlaced 1 (2 ^ 60) sb := by
  refine ⟨_,rfl,by decide,by decide,fun placed => ?_⟩
  have bit := placed.bits _ (by decide : Region.Holds _ 279825709104127)
  exact absurd bit (by decide)

end Assise.Layout
