import Assise.LogRing
import Assise.MapTable

-- The layout `mkfs` gives the NVM device, and where the block map table comes to lie in it.
namespace Assise.Mkfs

open MapTable
open LogRing (gLogSize)

def ninodes : Nat := 300000
def gNMaxLibfs : Nat := 4
def sizeofDinode : Nat := 256
def sizeofLease : Nat := 112

structure DiskSuperblock where
  size : Nat
  ndatablocks : Nat
  datablockStart : Nat
  logStart : Nat
  nmapentry : Nat
  nmapblocks : Nat
  mapTableStart : Nat
deriving DecidableEq, Repr

def blocksFor (bytes : Nat) : Nat :=
  bytes / gBlockSizeBytes + if bytes % gBlockSizeBytes ≠ 0 then 1 else 0

-- The root device is also the log device. `nbitmap` and `nmeta` are 32-bit variables.
def mkfs (gNNodes devSize : Nat) : Option DiskSuperblock :=
  let ninodeblocks := ninodes / (gBlockSizeBytes / sizeofDinode) + 1
  let leaseblocks := ninodes / (gBlockSizeBytes / sizeofLease) + 1
  let blks := devSize / gBlockSizeBytes
  let logSizeBlks := gLogSize * (gNMaxLibfs + gNNodes) + 1024
  let nmapblocks := blocksFor (blks * sizeofMlfsMapBlocks)
  if devSize < 4 * 2 ^ 20 ∨ blks ≤ logSizeBlks + nmapblocks then none
  else
    let fileSizeBlks := blks - logSizeBlks - nmapblocks
    let nbitmap := (fileSizeBlks / (gBlockSizeBytes * 8) + 1) % 2 ^ 32
    let nmeta := (2 + ninodeblocks + nbitmap + leaseblocks) % 2 ^ 32
    if fileSizeBlks ≤ nmeta then none
    else some
      { size := fileSizeBlks
        ndatablocks := fileSizeBlks - nmeta
        datablockStart := nmeta
        logStart := nmeta + (fileSizeBlks - nmeta)
        nmapentry := blks
        nmapblocks := nmapblocks
        mapTableStart := (devSize - nmapblocks * gBlockSizeBytes) / gBlockSizeBytes }

def DiskSuperblock.geometry (sb : DiskSuperblock) : Geometry := ⟨sb.mapTableStart,sb.nmapblocks,0⟩

def EntryInside (sb : DiskSuperblock) (lblk : Nat) : Prop :=
  sb.mapTableStart * gBlockSizeBytes ≤ entryAddress sb.geometry lblk ∧
    entryAddress sb.geometry lblk + sizeofMlfsMapBlocks ≤ (sb.mapTableStart + sb.nmapblocks) * gBlockSizeBytes

def EntriesApart (sb : DiskSuperblock) (a b : Nat) : Prop :=
  entryAddress sb.geometry a + sizeofMlfsMapBlocks ≤ entryAddress sb.geometry b ∨
    entryAddress sb.geometry b + sizeofMlfsMapBlocks ≤ entryAddress sb.geometry a

structure EntriesPlaced (sb : DiskSuperblock) : Prop where
  inside : ∀ lblk < sb.nmapentry, EntryInside sb lblk
  distinct : ∀ a < sb.nmapentry, ∀ b < sb.nmapentry, a ≠ b → EntriesApart sb a b

theorem blocksFor_bounds (bytes : Nat) :
    bytes ≤ blocksFor bytes * gBlockSizeBytes ∧ blocksFor bytes * gBlockSizeBytes < bytes + gBlockSizeBytes := by
  unfold blocksFor gBlockSizeBytes
  by_cases whole : bytes % 4096 ≠ 0
  · rw [if_pos whole]
    omega
  · rw [if_neg whole]
    omega

-- What the table's place has to do with the size of the device: the table ends where the whole
-- blocks of the device end.
structure TablePlace (sb : DiskSuperblock) (devSize : Nat) : Prop where
  entries : sb.nmapentry = devSize / gBlockSizeBytes
  blocks : sb.nmapblocks = blocksFor (sb.nmapentry * sizeofMlfsMapBlocks)
  ends : sb.mapTableStart + sb.nmapblocks = sb.nmapentry
  many : gLogSize < sb.nmapentry

variable {devSize : Nat} {sb : DiskSuperblock}

theorem mkfs_table {gNNodes : Nat} (accepted : mkfs gNNodes devSize = some sb) :
    TablePlace sb devSize := by
  unfold mkfs at accepted
  simp only at accepted
  split at accepted
  · cases accepted
  · rename_i large
    split at accepted
    · cases accepted
    · cases accepted
      refine ⟨rfl,rfl,?_,?_⟩
      · have bounds := blocksFor_bounds (devSize / gBlockSizeBytes * sizeofMlfsMapBlocks)
        simp only [gBlockSizeBytes] at *
        omega
      · simp only [gLogSize,gNMaxLibfs] at *
        omega

theorem entryAddress_mod (sb : DiskSuperblock) (lblk : Nat) :
    entryAddress sb.geometry lblk =
      (sb.mapTableStart * gBlockSizeBytes + lblk * sizeofMlfsMapBlocks) % 2 ^ 32 := by
  simp only [entryAddress,getBlknoAndOffset,Geometry.base,DiskSuperblock.geometry,gBlockSizeBytes,gBlockSizeShift]
  rw [Nat.shiftRight_eq_div_pow]
  omega

theorem placed_of_small {devSize : Nat} (place : TablePlace sb devSize)
    (small : sb.nmapentry ≤ 2 ^ 20) : EntriesPlaced sb := by
  obtain ⟨low,high⟩ := blocksFor_bounds (sb.nmapentry * sizeofMlfsMapBlocks)
  rw [←place.blocks] at low high
  have ends := place.ends
  simp only [gBlockSizeBytes,sizeofMlfsMapBlocks] at low high
  have address : ∀ lblk < sb.nmapentry, entryAddress sb.geometry lblk =
      sb.mapTableStart * gBlockSizeBytes + lblk * sizeofMlfsMapBlocks := by
    intro lblk bound
    have below : sb.mapTableStart * gBlockSizeBytes + lblk * sizeofMlfsMapBlocks < 2 ^ 32 := by
      have whole : sb.nmapentry * 4096 ≤ 2 ^ 20 * 4096 := Nat.mul_le_mul_right 4096 small
      have below : lblk * 24 < sb.nmapblocks * 4096 := by omega
      have table : sb.mapTableStart * 4096 + sb.nmapblocks * 4096 = sb.nmapentry * 4096 := by
        rw [←add_mul,ends]
      calc sb.mapTableStart * 4096 + lblk * 24 < sb.mapTableStart * 4096 + sb.nmapblocks * 4096 :=
            Nat.add_lt_add_left below _
        _ = sb.nmapentry * 4096 := table
        _ ≤ 2 ^ 20 * 4096 := whole
        _ = 2 ^ 32 := by norm_num
    rw [entryAddress_mod,Nat.mod_eq_of_lt below]
  constructor
  · intro lblk bound
    unfold EntryInside
    rw [address lblk bound]
    simp only [gBlockSizeBytes,sizeofMlfsMapBlocks]
    omega
  · intro a boundA b boundB different
    unfold EntriesApart
    rw [address a boundA,address b boundB]
    simp only [sizeofMlfsMapBlocks]
    omega

theorem last_outside {devSize : Nat} (place : TablePlace sb devSize)
    (large : 2 ^ 20 < sb.nmapentry) : ¬ EntryInside sb (sb.nmapentry - 1) := by
  obtain ⟨low,high⟩ := blocksFor_bounds (sb.nmapentry * sizeofMlfsMapBlocks)
  rw [←place.blocks] at low high
  have ends := place.ends
  intro placed
  have inside := placed.1
  rw [entryAddress_mod] at inside
  simp only [gBlockSizeBytes,sizeofMlfsMapBlocks] at low high inside
  have wraps : 1 ≤ (sb.mapTableStart * 4096 + (sb.nmapentry - 1) * 24) / 2 ^ 32 := by omega
  have parts := Nat.div_add_mod (sb.mapTableStart * 4096 + (sb.nmapentry - 1) * 24) (2 ^ 32)
  have rest := Nat.mod_lt (sb.mapTableStart * 4096 + (sb.nmapentry - 1) * 24) (show 2 ^ 32 > 0 by decide)
  generalize (sb.mapTableStart * 4096 + (sb.nmapentry - 1) * 24) / 2 ^ 32 = laps at *
  generalize (sb.mapTableStart * 4096 + (sb.nmapentry - 1) * 24) % 2 ^ 32 = address at *
  omega

theorem map_entries_placed_iff (gNNodes devSize : Nat) (sb : DiskSuperblock)
    (accepted : mkfs gNNodes devSize = some sb) :
    EntriesPlaced sb ↔ devSize / gBlockSizeBytes ≤ 2 ^ 20 := by
  have place := mkfs_table accepted
  rw [←place.entries]
  constructor
  · intro placed
    by_contra large
    have many := place.many
    exact last_outside place (Nat.lt_of_not_le large) (placed.inside _ (by omega))
  · exact placed_of_small place

theorem map_entries_placed_default : ∃ sb, mkfs 1 3221225472 = some sb ∧ sb.mapTableStart = 781824 ∧
    (EntriesPlaced sb ↔ 3221225472 / gBlockSizeBytes ≤ 2 ^ 20) :=
  ⟨_,rfl,by decide,map_entries_placed_iff 1 3221225472 _ rfl⟩

-- On 8 GiB the table starts at block 2084864, but the entry of block 100 is looked for in block 1036288.
theorem map_entry_of_8GiB_outside : ∃ sb, mkfs 1 8589934592 = some sb ∧ 100 < sb.nmapentry ∧
    sb.mapTableStart = 2084864 ∧ getBlknoAndOffset sb.geometry 100 = (1036288,2400) ∧
    sb.datablockStart ≤ 1036288 ∧ 1036288 < sb.logStart ∧ ¬ EntryInside sb 100 := by
  refine ⟨_,rfl,by decide,by decide,by decide,by decide,by decide,?_⟩
  unfold EntryInside
  decide

end Assise.Mkfs
