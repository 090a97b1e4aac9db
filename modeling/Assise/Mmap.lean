import Assise.FileReadData

-- `mlfs_posix_mmap` hands out the address of a file's first block if the extents are contiguous. These name logical
-- blocks: the map table may have any of them elsewhere.
namespace Assise.FileRead

open OpenFiles FileWrite Extents FileMap Lib.Memory
open MapTable hiding gBlockSizeBytes

-- `none` is NULL. Each round finds a block, so as many rounds as there are blocks are enough.
def mmapFrom (f : Inode) (blkCount blkBase : Nat) : Nat → Nat → Option Nat
  | 0,_ => none
  | fuel + 1,blkFound =>
    if blkFound < blkCount then
      (bmap f (blkFound * gBlockSizeBytes) ((blkCount - blkFound) % 2 ^ 32)).bind fun map =>
        if map.ret = 0 ∨ blkBase + blkFound ≠ map.mPblk then none
        else mmapFrom f blkCount blkBase fuel (blkFound + map.ret)
    else some blkBase

def mlfsPosixMmap (f : Inode) (size : Nat) : Option Nat :=
  let blkCount := size / gBlockSizeBytes
  (bmap f 0 (blkCount % 2 ^ 32)).bind fun map =>
    if map.ret = 0 then none else mmapFrom f blkCount map.mPblk blkCount map.ret

section Mapping
variable {Store : Type} (entries : EntryStore Store) {f : Inode} (s : Store) {size base : Nat}

-- The memory at the address has the bytes of the file, whatever is on the device.
def MmapRight (f : Inode) (size base : Nat) : Prop :=
  ∀ device : Bytes, ∀ i < size, device (base * gBlockSizeBytes + i) = fileByte entries device f s i

def InPlace (f : Inode) (size : Nat) : Prop :=
  ∀ first, f.tree.map 0 = some first →
    (∀ k < size / gBlockSizeBytes, home entries s (first + k) = first + k) ∧
    (size % gBlockSizeBytes ≠ 0 →
      ∃ b, f.tree.map (size / gBlockSizeBytes) = some b ∧ home entries s b = first + size / gBlockSizeBytes)

theorem bmap_hit (treeOk : TreeOk f.tree.root) {startOffset blkCount : Nat} {map : MapResult}
    (found : bmap f startOffset blkCount = some map) (some : map.ret ≠ 0) :
    Hit f.tree.map (startOffset / gBlockSizeBytes % 2 ^ 32) blkCount map := by
  obtain ⟨_,got,rfl⟩ := Option.map_eq_some_iff.mp found
  exact lookup_found treeOk got some

theorem mmapFrom_contiguous (treeOk : TreeOk f.tree.root) {blkCount blkBase fuel blkFound : Nat}
    (before : ∀ k < blkFound, f.tree.map k = some (blkBase + k)) (done : mmapFrom f blkCount blkBase fuel blkFound = some base) :
    base = blkBase ∧ ∀ k < blkCount, f.tree.map k = some (blkBase + k) := by
  induction fuel generalizing blkFound with
  | zero => cases done
  | succ fuel ih =>
    unfold mmapFrom at done
    split at done
    · obtain ⟨map,found,rest⟩ := Option.bind_eq_some_iff.mp done
      obtain ⟨good,rest⟩ := Option.ite_none_left_eq_some.mp rest
      obtain ⟨some,next⟩ := not_or.mp good
      have hit := bmap_hit treeOk found some
      -- a block of the file beyond the last extent would have been found before
      have low : blkFound < 2 ^ 32 := by
        by_contra high
        exact absurd (mapped_inside treeOk (before (2 ^ 32 - 1) (by omega))) (by decide)
      rw [Nat.mul_div_cancel _ (by decide),Nat.mod_eq_of_lt low] at hit
      refine ih (fun k less => ?_) rest
      by_cases old : k < blkFound
      · exact before k old
      · have new := hit.agrees (k - blkFound) (by omega)
        rw [Nat.add_sub_cancel' (by omega)] at new
        rw [new]
        congr 1
        omega
    · cases done
      exact ⟨rfl,fun k less => before k (by omega)⟩

theorem mmap_contiguous (treeOk : TreeOk f.tree.root) (mapped : mlfsPosixMmap f size = some base) :
    f.tree.map 0 = some base ∧ ∀ k < size / gBlockSizeBytes, f.tree.map k = some (base + k) := by
  obtain ⟨map,found,rest⟩ := Option.bind_eq_some_iff.mp mapped
  obtain ⟨some,rest⟩ := Option.ite_none_left_eq_some.mp rest
  have hit := bmap_hit treeOk found some
  rw [Nat.zero_div,Nat.zero_mod] at hit
  have first : ∀ k < map.ret, f.tree.map k = Option.some (map.mPblk + k) := fun k less => by
    have here := hit.agrees k less
    rwa [zero_add] at here
  obtain ⟨rfl,blocks⟩ := mmapFrom_contiguous treeOk first rest
  exact ⟨first 0 hit.positive,blocks⟩

theorem fileByte_digested (digested : ∀ k, f.logHead k = []) (device : Bytes) (i : Nat) :
    fileByte entries device f s i = match f.tree.map (i / gBlockSizeBytes) with
      | some b => device (home entries s b * gBlockSizeBytes + i % gBlockSizeBytes)
      | none => 0 := by
  unfold fileByte
  rw [digested]
  cases f.tree.map (i / gBlockSizeBytes) with
  | none => rfl
  | some b => exact congrArg (fun p => device (p * gBlockSizeBytes + i % gBlockSizeBytes)) (lblk2pblk_home entries s b)

theorem mmap_right_iff_blocks (digested : ∀ k, f.logHead k = []) :
    MmapRight entries s f size base ↔
      ∀ k, k * gBlockSizeBytes < size → ∃ b, f.tree.map k = some b ∧ home entries s b = base + k := by
  have block : gBlockSizeBytes = 4096 := rfl
  constructor
  · intro right k inside
    -- one byte of the device is set, the first of the block that the address leads to
    have byte := right (fun a => if a = (base + k) * gBlockSizeBytes then 1 else 0) (k * gBlockSizeBytes) inside
    rw [fileByte_digested entries s digested,Nat.mul_div_cancel _ (by decide),Nat.mul_mod_left,
      ← add_mul,if_pos rfl] at byte
    cases found : f.tree.map k with
    | none =>
      rw [found] at byte
      dsimp only at byte
      exact absurd byte (by decide)
    | some b =>
      rw [found] at byte
      dsimp only at byte
      refine ⟨b,rfl,?_⟩
      by_contra other
      rw [if_neg (by rw [block]; omega)] at byte
      exact absurd byte (by decide)
  · intro blocks device i inside
    obtain ⟨b,mapped,there⟩ := blocks (i / gBlockSizeBytes) (lt_of_le_of_lt (Nat.div_mul_le_self ..) inside)
    rw [fileByte_digested entries s digested,mapped]
    dsimp only
    rw [there]
    exact congrArg device (by rw [block]; omega)

theorem mmap_right_iff (treeOk : TreeOk f.tree.root) (digested : ∀ k, f.logHead k = [])
    (mapped : mlfsPosixMmap f size = some base) : MmapRight entries s f size base ↔ InPlace entries s f size := by
  have block : gBlockSizeBytes = 4096 := rfl
  obtain ⟨first,whole⟩ := mmap_contiguous treeOk mapped
  rw [mmap_right_iff_blocks entries s digested]
  constructor
  · intro blocks b start
    rw [first] at start
    cases start
    refine ⟨fun k less => ?_,fun partly => blocks _ (by rw [block] at partly ⊢; omega)⟩
    obtain ⟨b,found,there⟩ := blocks k (by rw [block] at less ⊢; omega)
    rw [whole k less] at found
    cases found
    exact there
  · intro place k inside
    obtain ⟨homes,last⟩ := place base first
    by_cases less : k < size / gBlockSizeBytes
    · exact ⟨base + k,whole k less,homes k less⟩
    · have end_ : k = size / gBlockSizeBytes := by
        rw [block] at inside less ⊢
        omega
      rw [end_]
      exact last (by rw [block] at inside less ⊢; omega)

end Mapping

def digestedFile (extents : List Extent) : Inode :=
  ⟨⟨⟨[],⟨[],none,0,0⟩,0,0,0,⟨fun _ => false,fun _ => false⟩,0,[]⟩,⟨0,leafNode extents⟩⟩,fun _ => []⟩

theorem mmap_right_one_extent : MmapRight table Table.empty (digestedFile [⟨0,2,600000⟩]) 8192 600000 := by
  have short : [(⟨0,2,600000⟩ : Extent)].length ≤ mlfsExtSpaceRoot := by decide
  have treeOk : TreeOk (digestedFile [⟨0,2,600000⟩]).tree.root := by
    refine ⟨.inr ⟨0,short,fun l member => ?_⟩,⟨fun e member => ?_,List.pairwise_singleton _ _⟩⟩
    · cases List.mem_singleton.mp member
      rfl
    · cases List.mem_singleton.mp member
      exact ⟨by decide,by decide,by decide⟩
  refine (mmap_right_iff table Table.empty treeOk (fun _ => rfl) (by decide +kernel)).mpr fun first start => ?_
  cases start
  exact ⟨fun k _ => by simp [home,table,Table.empty,mlfsMapUninit],by decide⟩

-- A digest has exchanged the second block of an extent; and a file ends within a block that is not beside the one
-- before.
theorem mmap_maps_other_blocks :
    (mlfsPosixMmap (digestedFile [⟨0,2,600000⟩]) 8192 = some 600000 ∧
      ¬ MmapRight table (updateMapTable table Table.empty 600001 620000) (digestedFile [⟨0,2,600000⟩]) 8192 600000) ∧
    mlfsPosixMmap (digestedFile [⟨0,1,600000⟩,⟨1,1,600005⟩]) 4196 = some 600000 ∧
      ¬ MmapRight table Table.empty (digestedFile [⟨0,1,600000⟩,⟨1,1,600005⟩]) 4196 600000 := by
  refine ⟨⟨by decide +kernel,fun right => ?_⟩,by decide +kernel,fun right => ?_⟩
  · have byte := right (fun a => if a = 600001 * 4096 then 1 else 0) 4096 (by decide)
    exact absurd byte (by decide +kernel)
  · have byte := right (fun a => if a = 600001 * 4096 then 1 else 0) 4096 (by decide)
    exact absurd byte (by decide +kernel)

end Assise.FileRead
