import Assise.MapTable
import Assise.Lib.Copies
import Mathlib.Algebra.Order.Ring.Int

-- Reads through the block map table: the loop over the blocks of a request, and what LibFS reads through a log block
-- that KernFS has swapped away. The table's own blocks are kept beside the device.
namespace Assise.MapTable
open Lib.Memory Lib.Copies List

theorem or_init_cache (flags : Nat) : (flags ||| mlfsMapInit) &&& mlfsMapCache = flags &&& mlfsMapCache := by
  have apart : mlfsMapInit &&& mlfsMapCache = 0 := rfl
  rw [Nat.and_comm,Nat.and_or_distrib_left,Nat.and_comm mlfsMapCache mlfsMapInit,apart,Nat.or_zero,Nat.and_comm]

theorem uncache_cache (flags : Nat) : ((flags &&& mlfsMapUncache) &&& flags) &&& mlfsMapCache ≠ mlfsMapCache := by
  have apart : mlfsMapUncache &&& mlfsMapCache = 0 := rfl
  rw [Nat.and_assoc,Nat.and_comm flags mlfsMapCache,←Nat.and_assoc,Nat.and_assoc flags,apart,Nat.and_zero,Nat.zero_and]
  decide

section Entries
variable {Store : Type} (entries : EntryStore Store)

def cacheBit (s : Store) (lblk : Nat) : Prop := (entries.getMapEntryHelper s lblk).mFlags &&& mlfsMapCache = mlfsMapCache

def cachedHome (s : Store) (lblk : Nat) : Nat :=
  let data := entries.getMapEntryHelper s lblk
  if data.mFlags &&& mlfsMapInit = mlfsMapUninit then lblk
  else if data.mFlags &&& mlfsMapCache = mlfsMapCache then data.mLblk else data.mPblk

theorem lblk2pblk4cache_cachedHome (s : Store) {lblk : Nat} (own : entries.Addressable lblk) :
    (lblk2pblk4cache entries s lblk).1 = cachedHome entries s lblk := by
  have range : lblk % 2 ^ 32 = lblk := Nat.mod_eq_of_lt (entries.addressable_fits lblk own)
  unfold lblk2pblk4cache getMapTableEntry cachedHome
  dsimp only
  split
  · dsimp only
    rw [range,ite_self]
  · rfl

variable {c b l k : Nat} {s : Store}

theorem getMapTableEntry_other (s : Store) (ownC : entries.Addressable c) (own : entries.Addressable b)
    (apart : b ≠ c) : entries.getMapEntryHelper (getMapTableEntry entries s c).2 b = entries.getMapEntryHelper s b := by
  unfold getMapTableEntry
  dsimp only
  split
  · exact entries.get_set_other s c b _ ownC own (Ne.symm apart)
  · rfl

theorem getMapTableEntry_init
    (init : (entries.getMapEntryHelper s c).mFlags &&& mlfsMapInit = mlfsMapInit) : (getMapTableEntry entries s c).2 = s := by
  unfold getMapTableEntry
  dsimp only
  rw [init,if_neg init_ne_uninit]

theorem getMapTableEntry_created (formed : WellFormed entries s) (own : entries.Addressable c)
    (clear : (entries.getMapEntryHelper s c).mFlags &&& mlfsMapInit = mlfsMapUninit) :
    entries.getMapEntryHelper (getMapTableEntry entries s c).2 c =
      ⟨c,c % 2 ^ 32,gBlockSizeBytes,(entries.getMapEntryHelper s c).mFlags ||| mlfsMapInit⟩ := by
  have read := getMapTableEntry_spec entries s c formed own
  have fits := read.fits
  unfold getMapTableEntry at fits ⊢
  rw [if_pos clear] at fits ⊢
  exact entries.get_set_same s c _ own fits

theorem read_cachedHome (formed : WellFormed entries s) (ownC : entries.Addressable c)
    (own : entries.Addressable b) :
    cachedHome entries (getMapTableEntry entries s c).2 b = cachedHome entries s b ∧
      (cacheBit entries (getMapTableEntry entries s c).2 b ↔ cacheBit entries s b) := by
  by_cases same : b = c
  · subst same
    rcases init_or_uninit (entries.getMapEntryHelper s b).mFlags with clear | set
    · have created := getMapTableEntry_created entries formed own clear
      have range : b % 2 ^ 32 = b := Nat.mod_eq_of_lt (entries.addressable_fits b own)
      have ready := or_init (entries.getMapEntryHelper s b).mFlags
      unfold cachedHome cacheBit
      rw [created,or_init_cache]
      dsimp only
      rw [if_pos clear,if_neg (by rw [ready]; exact init_ne_uninit),range,ite_self]
      exact ⟨rfl,Iff.rfl⟩
    · rw [getMapTableEntry_init entries set]
      exact ⟨rfl,Iff.rfl⟩
  · have kept := getMapTableEntry_other entries s ownC own same
    unfold cachedHome cacheBit
    rw [kept]
    exact ⟨rfl,Iff.rfl⟩

theorem update_entries {s : Store} (formed : WellFormed entries s) (ownK : entries.Addressable k)
    (ownL : entries.Addressable l) (distinct : k ≠ l) :
    let kernfsMap := (getMapTableEntry entries s k).1
    let libfsMap := (getMapTableEntry entries (getMapTableEntry entries s k).2 l).1
    entries.getMapEntryHelper (updateMapTable entries s k l) k = (swapEntries k l kernfsMap libfsMap).1 ∧
      entries.getMapEntryHelper (updateMapTable entries s k l) l = (swapEntries k l kernfsMap libfsMap).2 := by
  intro kernfsMap libfsMap
  have readK := getMapTableEntry_spec entries s k formed ownK
  have readL := getMapTableEntry_spec entries (getMapTableEntry entries s k).2 l readK.formed ownL
  have new := swapEntries_spec k l _ _ readK.fits readL.fits readK.init readL.init
  generalize stored : setMapTableEntry entries (setMapTableEntry entries
    (getMapTableEntry entries (getMapTableEntry entries s k).2 l).2 k (swapEntries k l kernfsMap libfsMap).1) l
    (swapEntries k l kernfsMap libfsMap).2 = t
  have atL : entries.getMapEntryHelper t l = (swapEntries k l kernfsMap libfsMap).2 := by
    rw [←stored]
    exact entries.get_set_same _ l _ ownL new.2.1
  have atK : entries.getMapEntryHelper t k = (swapEntries k l kernfsMap libfsMap).1 := by
    rw [←stored]
    exact (entries.get_set_other _ l k _ ownL ownK (Ne.symm distinct)).trans (entries.get_set_same _ k _ ownK new.1.1)
  have again : updateMapTable entries s k l = t := by
    have first : (getMapTableEntry entries t k).2 = t := getMapTableEntry_init entries (by rw [atK]; exact new.1.2.1)
    have second : (getMapTableEntry entries t l).2 = t := getMapTableEntry_init entries (by rw [atL]; exact new.2.2.1)
    have whole : updateMapTable entries s k l = (getMapTableEntry entries (getMapTableEntry entries t k).2 l).2 := by
      rw [←stored]
      rfl
    rw [whole,first,second]
  rw [again]
  exact ⟨atK,atL⟩

theorem update_other (ownK : entries.Addressable k) (ownL : entries.Addressable l)
    (own : entries.Addressable b) (notK : b ≠ k) (notL : b ≠ l) :
    entries.getMapEntryHelper (updateMapTable entries s k l) b = entries.getMapEntryHelper s b := by
  have read : ∀ t c, entries.Addressable c → b ≠ c →
      entries.getMapEntryHelper (getMapTableEntry entries t c).2 b = entries.getMapEntryHelper t b :=
    fun t c ownC apart => getMapTableEntry_other entries t ownC own apart
  have set : ∀ t c data, entries.Addressable c → b ≠ c →
      entries.getMapEntryHelper (setMapTableEntry entries t c data) b = entries.getMapEntryHelper t b :=
    fun t c data ownC apart => entries.get_set_other t c b data ownC own (Ne.symm apart)
  unfold updateMapTable
  dsimp only
  rw [read _ l ownL notL,read _ k ownK notK,set _ l _ ownL notL,set _ k _ ownK notK,read _ l ownL notL,read _ k ownK notK]

theorem reset_other (ownC : entries.Addressable c) (own : entries.Addressable b) (apart : b ≠ c) :
    entries.getMapEntryHelper (unsetMapTableEntryCacheBit entries s c) b = entries.getMapEntryHelper s b :=
  (entries.get_set_other _ c b _ ownC own (Ne.symm apart)).trans (getMapTableEntry_other entries s ownC own apart)

theorem reset_clears (formed : WellFormed entries s) (own : entries.Addressable c) :
    ¬ cacheBit entries (unsetMapTableEntryCacheBit entries s c) c := by
  have read := getMapTableEntry_spec entries s c formed own
  have stored := entries.get_set_same (getMapTableEntry entries s c).2 c
    {(getMapTableEntry entries s c).1 with
      mFlags := ((getMapTableEntry entries s c).1.mFlags &&& mlfsMapUncache) &&& (getMapTableEntry entries s c).1.mFlags}
    own ⟨read.fits.pblk,read.fits.lblk,read.fits.len,Nat.and_lt_two_pow _ read.fits.flags⟩
  intro set
  unfold cacheBit unsetMapTableEntryCacheBit setMapTableEntry at set
  dsimp only at set
  rw [stored] at set
  exact uncache_cache _ set

end Entries

section Swapped
variable {Store : Type} (entries : EntryStore Store)

def Lent (s : Store) (k l : Nat) : Prop := cacheBit entries s l → cachedHome entries s l = home entries s k

def MapOp.Swaps (b : Nat) : MapOp → Prop
  | .update kernfsLblk libfsLblk => b = kernfsLblk ∨ b = libfsLblk
  | .lookup _ | .lookupCache _ | .resetCacheBit _ => False

variable {b k l : Nat} {s t : Store}

theorem cachedHome_congr (same : entries.getMapEntryHelper t b = entries.getMapEntryHelper s b) :
    cachedHome entries t b = cachedHome entries s b ∧ (cacheBit entries t b ↔ cacheBit entries s b) := by
  unfold cachedHome cacheBit
  rw [same]
  exact ⟨rfl,Iff.rfl⟩

theorem Lent.congr (lent : Lent entries s k l) (homes : home entries t k = home entries s k)
    (cached : cachedHome entries t l = cachedHome entries s l ∧ (cacheBit entries t l ↔ cacheBit entries s l)) :
    Lent entries t k l := by
  intro set
  rw [cached.1,homes]
  exact lent (cached.2.mp set)

variable {σ : Equiv.Perm Nat} {n : Nat}

section
variable (refines : Refines entries n s σ)
include refines

theorem update_lends
    (own : ∀ b, b < n → entries.Addressable b) (smallK : k < n) (smallL : l < n) (distinct : k ≠ l) :
    Lent entries (updateMapTable entries s k l) k l ∧ Lent entries (updateMapTable entries s k l) l k := by
  have ownK := own k smallK
  have ownL := own l smallL
  have readK := getMapTableEntry_spec entries s k refines.formed ownK
  have readL := getMapTableEntry_spec entries (getMapTableEntry entries s k).2 l readK.formed ownL
  have new := swapEntries_spec k l _ _ readK.fits readL.fits readK.init readL.init
  obtain ⟨atK,atL⟩ := update_entries entries refines.formed ownK ownL distinct
  have homes := (updateMapTable_spec entries s k l refines.formed ownK ownL distinct).2
  have homeK := homes k ownK
  have homeL := homes l ownL
  rw [Equiv.swap_apply_left] at homeK
  rw [Equiv.swap_apply_right] at homeL
  -- homes are blocks with an entry, so the 32-bit field holds them
  have short : ∀ b, b < n → home entries s b % 2 ^ 32 = home entries s b := fun b small => by
    rw [refines.homes b small]
    exact Nat.mod_eq_of_lt (entries.addressable_fits _ (own _ (refines.stable b small)))
  constructor
  · intro set
    unfold cacheBit at set
    unfold cachedHome
    rw [atL] at set ⊢
    dsimp only
    rw [if_neg (by rw [new.2.2.1]; exact init_ne_uninit),if_pos set,homeK]
    unfold swapEntries
    dsimp only
    rw [if_pos readL.init,readL.pblk,readK.homes l ownL]
    exact short l smallL
  · intro set
    unfold cacheBit at set
    unfold cachedHome
    rw [atK] at set ⊢
    dsimp only
    rw [if_neg (by rw [new.1.2.1]; exact init_ne_uninit),if_pos set,homeL]
    unfold swapEntries
    dsimp only
    rw [if_pos readK.init,readK.pblk]
    exact short k smallK

theorem apply_lent {op : MapOp}
    (own : ∀ b, b < n → entries.Addressable b) (smallK : k < n) (smallL : l < n) (valid : op.Valid n)
    (notK : ¬ op.Swaps k) (notL : ¬ op.Swaps l) (lent : Lent entries s k l) : Lent entries (op.apply entries s) k l := by
  have ownK := own k smallK
  have ownL := own l smallL
  cases op with
  | lookup c | lookupCache c =>
    have read := getMapTableEntry_spec entries s c refines.formed (own c valid)
    exact lent.congr entries (read.homes k ownK) (read_cachedHome entries refines.formed (own c valid) ownL)
  | resetCacheBit c =>
    have reset := unsetMapTableEntryCacheBit_spec entries s c refines.formed (own c valid)
    by_cases same : l = c
    · subst same
      exact fun set => absurd set (reset_clears entries refines.formed ownL)
    · exact lent.congr entries (reset.2 k ownK) (cachedHome_congr entries (reset_other entries (own c valid) ownL same))
  | update a b =>
    obtain ⟨smallA,smallB,distinct⟩ := valid
    obtain ⟨notKA,notKB⟩ := not_or.mp notK
    obtain ⟨notLA,notLB⟩ := not_or.mp notL
    have homes := (updateMapTable_spec entries s a b refines.formed (own a smallA) (own b smallB) distinct).2 k ownK
    rw [Equiv.swap_apply_of_ne_of_ne notKA notKB] at homes
    exact lent.congr entries homes
      (cachedHome_congr entries (update_other entries (own a smallA) (own b smallB) ownL notLA notLB))

theorem runOps_lent {ops : List MapOp}
    (own : ∀ b, b < n → entries.Addressable b) (smallK : k < n) (smallL : l < n) (valid : ∀ op ∈ ops, op.Valid n)
    (apart : ∀ op ∈ ops, ¬ op.Swaps k ∧ ¬ op.Swaps l) (lent : Lent entries s k l) : Lent entries (runOps entries s ops) k l := by
  induction ops generalizing s σ with
  | nil => exact lent
  | cons op rest ih =>
    have here := valid op mem_cons_self
    obtain ⟨notK,notL⟩ := apart op mem_cons_self
    exact ih (apply_refines entries n own s σ op refines here) (fun later member => valid later (mem_cons_of_mem _ member))
      (fun later member => apart later (mem_cons_of_mem _ member))
      (apply_lent entries refines own smallK smallL here notK notL lent)

theorem runOps_lends {before after : List MapOp} {swap : MapOp}
    (own : ∀ b, b < n → entries.Addressable b)
    (swapped : swap = .update k l ∨ swap = .update l k) (valid : ∀ op ∈ before ++ swap :: after, op.Valid n)
    (last : ∀ op ∈ after, ¬ op.Swaps k ∧ ¬ op.Swaps l) :
    k < n ∧ l < n ∧ Lent entries (runOps entries s (before ++ swap :: after)) k l := by
  have early := runOps_refines entries n own s σ before refines (fun op member => valid op (mem_append_left _ member))
  have here : swap.Valid n := valid swap (mem_append_right _ mem_cons_self)
  have next := apply_refines entries n own _ _ swap early here
  have later : ∀ op ∈ after, op.Valid n := fun op member => valid op (mem_append_right _ (mem_cons_of_mem _ member))
  have whole : runOps entries s (before ++ swap :: after) =
      runOps entries (swap.apply entries (runOps entries s before)) after := by
    unfold runOps
    rw [foldl_append,foldl_cons]
  rw [whole]
  rcases swapped with same | same <;> subst same
  · have lent := (update_lends entries early own here.1 here.2.1 here.2.2).1
    exact ⟨here.1,here.2.1,runOps_lent entries next own here.1 here.2.1 later last lent⟩
  · have lent := (update_lends entries early own here.1 here.2.1 here.2.2).2
    exact ⟨here.2.1,here.1,runOps_lent entries next own here.2.1 here.1 later last lent⟩

end

end Swapped

section Loop
variable {Store : Type} (entries : EntryStore Store)

structure BufferHead where
  bBlocknr : Nat
  bSize : Nat
  bOffset : Nat

def physical (cacheBitSet : Bool) (s : Store) (lblk : Nat) : Nat × Store :=
  if cacheBitSet then lblk2pblk4cache entries s lblk else lblk2pblk entries s lblk

def bhSubmitReadSyncIO (device : Bytes) (pblk offset size : Nat) (data : Int) (buffer : Int → UInt8) : Int → UInt8 :=
  paste buffer (fun x => device (pblk * gBlockSizeBytes + offset + (x - data).toNat)) data (data + size)

-- The body of the loop for one `i`. The shift of the int `i` is taken in 32 bits with sign.
def readBlock (device : Bytes) (bh : BufferHead) (cacheBitSet : Bool) (state : Store × (Int → UInt8)) (i : Nat) :
    Store × (Int → UInt8) :=
  if bh.bSize % gBlockSizeBytes = 0 ∧ i = bh.bSize >>> gBlockSizeShift then state
  else
    let (plogblk,s) := physical entries cacheBitSet state.1 (bh.bBlocknr + i)
    let data := ((i * gBlockSizeBytes : Nat) : Int).bmod (2 ^ 32)
    let offset := if i = 0 then bh.bOffset else 0
    let size :=
      if bh.bSize % gBlockSizeBytes ≠ 0 ∧ i = bh.bSize >>> gBlockSizeShift then bh.bSize % gBlockSizeBytes
      else if i = 0 then
        if (bh.bOffset + bh.bSize) % 2 ^ 32 < gBlockSizeBytes then bh.bSize
        else (2 ^ 32 + gBlockSizeBytes - bh.bOffset) % 2 ^ 32
      else gBlockSizeBytes
    (s, bhSubmitReadSyncIO device plogblk offset size data state.2)

def bhSubmitReadSyncIOLoop (device : Bytes) (bh : BufferHead) (cacheBitSet : Bool) (s : Store) (buffer : Int → UInt8) :
    Store × (Int → UInt8) :=
  (List.range ((bh.bSize >>> gBlockSizeShift) + 1)).foldl (readBlock entries device bh cacheBitSet) (s,buffer)

def mappedByte (device : Bytes) (bh : BufferHead) (cacheBitSet : Bool) (s : Store) (x : Int) : UInt8 :=
  device ((physical entries cacheBitSet s (bh.bBlocknr + (bh.bOffset + x.toNat) / gBlockSizeBytes)).1 * gBlockSizeBytes +
    (bh.bOffset + x.toNat) % gBlockSizeBytes)

structure BufferHead.Readable (bh : BufferHead) : Prop where
  some : 1 ≤ bh.bSize
  short : bh.bSize ≤ 2 ^ 31
  shape : bh.bOffset = 0 ∨ bh.bOffset + bh.bSize ≤ gBlockSizeBytes

structure SameMap (cacheBitSet : Bool) (s t : Store) : Prop where
  formed : WellFormed entries t
  same : ∀ b, entries.Addressable b → (physical entries cacheBitSet t b).1 = (physical entries cacheBitSet s b).1

theorem physical_cached (s : Store) (lblk : Nat) : physical entries true s lblk = lblk2pblk4cache entries s lblk := rfl

theorem physical_plain (s : Store) (lblk : Nat) : physical entries false s lblk = lblk2pblk entries s lblk := rfl

theorem physical_store (cacheBitSet : Bool) (s : Store) (lblk : Nat) :
    (physical entries cacheBitSet s lblk).2 = (getMapTableEntry entries s lblk).2 := by
  cases cacheBitSet
  · exact lblk2pblk_store entries s lblk
  · exact lblk2pblk4cache_store entries s lblk

variable {t s : Store} {c l k : Nat} {cacheBitSet : Bool} {bh : BufferHead}

theorem physical_keeps (reads : Bool) (kept : SameMap entries cacheBitSet s t)
    (ownC : entries.Addressable c) : SameMap entries cacheBitSet s (physical entries reads t c).2 := by
  have read := getMapTableEntry_spec entries t c kept.formed ownC
  rw [physical_store]
  refine ⟨read.formed,fun b own => Eq.trans ?_ (kept.same b own)⟩
  cases cacheBitSet
  · simp only [physical_plain,lblk2pblk_home]
    exact read.homes b own
  · simp only [physical_cached,lblk2pblk4cache_cachedHome entries _ own]
    exact (read_cachedHome entries kept.formed ownC own).1

section
theorem bSize_blocks (bh : BufferHead) : bh.bSize >>> gBlockSizeShift = bh.bSize / 4096 := Nat.shiftRight_eq_div_pow _ _

variable (device : Bytes)
include device

theorem readBlock_piece {state : Store × (Int → UInt8)}
    {i : Nat} (readable : bh.Readable) (kept : SameMap entries cacheBitSet s state.1)
    (own : entries.Addressable (bh.bBlocknr + i)) (inside : i * gBlockSizeBytes < bh.bSize) :
    let next := readBlock entries device bh cacheBitSet state i
    SameMap entries cacheBitSet s next.1 ∧
      Filled state.2 next.2 (mappedByte entries device bh cacheBitSet s) ((i * gBlockSizeBytes : Nat) : Int)
        ((min ((i + 1) * gBlockSizeBytes) bh.bSize : Nat) : Int) := by
  obtain ⟨some,short,shape⟩ := readable
  have block : gBlockSizeBytes = 4096 := rfl
  have shift := bSize_blocks bh
  have skip : ¬ (bh.bSize % gBlockSizeBytes = 0 ∧ i = bh.bSize >>> gBlockSizeShift) := by
    rw [shift,block]
    rw [block] at inside
    omega
  have position : ((i * gBlockSizeBytes : Nat) : Int).bmod (2 ^ 32) = ((i * gBlockSizeBytes : Nat) : Int) := by
    refine Int.bmod_eq_of_le ?_ ?_ <;> omega
  -- the three special cases of the source are one: up to the end of the block or of the request
  have size : (if bh.bSize % gBlockSizeBytes ≠ 0 ∧ i = bh.bSize >>> gBlockSizeShift then bh.bSize % gBlockSizeBytes
      else if i = 0 then
        if (bh.bOffset + bh.bSize) % 2 ^ 32 < gBlockSizeBytes then bh.bSize
        else (2 ^ 32 + gBlockSizeBytes - bh.bOffset) % 2 ^ 32
      else gBlockSizeBytes) = min ((i + 1) * gBlockSizeBytes) bh.bSize - i * gBlockSizeBytes := by
    rw [shift,block]
    rw [block] at inside shape
    split_ifs <;> omega
  have next : readBlock entries device bh cacheBitSet state i =
      ((physical entries cacheBitSet state.1 (bh.bBlocknr + i)).2,
        bhSubmitReadSyncIO device (physical entries cacheBitSet state.1 (bh.bBlocknr + i)).1 (if i = 0 then bh.bOffset else 0)
          (min ((i + 1) * gBlockSizeBytes) bh.bSize - i * gBlockSizeBytes) ((i * gBlockSizeBytes : Nat) : Int) state.2) := by
    unfold readBlock
    rw [if_neg skip,size,position]
  rw [next]
  refine ⟨physical_keeps entries cacheBitSet kept own,?_⟩
  have stop : ((i * gBlockSizeBytes : Nat) : Int) + ((min ((i + 1) * gBlockSizeBytes) bh.bSize - i * gBlockSizeBytes : Nat) : Int) =
      ((min ((i + 1) * gBlockSizeBytes) bh.bSize : Nat) : Int) := by
    rw [block] at inside ⊢
    omega
  dsimp only
  unfold bhSubmitReadSyncIO
  rw [stop]
  refine (filled_paste _ _ _ _).congr fun x low high => ?_
  -- inside the piece the position's block is number `i` and its byte follows from the offset
  have place : (bh.bOffset + x.toNat) / gBlockSizeBytes = i ∧
      (if i = 0 then bh.bOffset else 0) + (x - ((i * gBlockSizeBytes : Nat) : Int)).toNat =
        (bh.bOffset + x.toNat) % gBlockSizeBytes := by
    rw [block] at inside shape low high ⊢
    split_ifs <;> omega
  unfold mappedByte
  rw [place.1,←place.2,kept.same _ own,Nat.add_assoc]

theorem readBlock_tail (cacheBitSet : Bool) (state : Store × (Int → UInt8)) {i : Nat}
    (later : i ≠ 0) (tail : bh.bSize % gBlockSizeBytes ≠ 0) (last : i = bh.bSize >>> gBlockSizeShift) :
    (readBlock entries device bh cacheBitSet state i).2 =
      bhSubmitReadSyncIO device (physical entries cacheBitSet state.1 (bh.bBlocknr + i)).1 0 (bh.bSize % gBlockSizeBytes)
        (((i * gBlockSizeBytes : Nat) : Int).bmod (2 ^ 32)) state.2 := by
  unfold readBlock
  rw [if_neg fun skip => tail skip.1,if_neg later,if_pos ⟨tail,last⟩]

theorem readBlock_run (cacheBitSet : Bool) {s : Store} (buffer : Int → UInt8)
    (readable : bh.Readable) (formed : WellFormed entries s)
    (own : ∀ i, i * gBlockSizeBytes < bh.bSize → entries.Addressable (bh.bBlocknr + i)) (count : Nat)
    (bound : count ≤ (bh.bSize >>> gBlockSizeShift) + 1) :
    let reached := (List.range count).foldl (readBlock entries device bh cacheBitSet) (s,buffer)
    SameMap entries cacheBitSet s reached.1 ∧
      Filled buffer reached.2 (mappedByte entries device bh cacheBitSet s) 0 ((min (count * gBlockSizeBytes) bh.bSize : Nat) : Int) := by
  induction count with
  | zero =>
    refine ⟨⟨formed,fun _ _ => rfl⟩,?_⟩
    rw [Nat.zero_mul,Nat.zero_min]
    exact filled_refl _ _ _
  | succ count ih =>
    obtain ⟨kept,filled⟩ := ih (by omega)
    have shift := bSize_blocks bh
    have block : gBlockSizeBytes = 4096 := rfl
    rw [range_succ,foldl_append]
    by_cases inside : count * gBlockSizeBytes < bh.bSize
    · obtain ⟨later,piece⟩ := readBlock_piece entries device readable kept (own count inside) inside
      rw [Nat.min_eq_left (Nat.le_of_lt inside)] at filled
      exact ⟨later,filled.append piece (by omega) (by rw [block] at *; omega)⟩
    · -- the size is a multiple of the block: the last round does nothing
      have skip : bh.bSize % gBlockSizeBytes = 0 ∧ count = bh.bSize >>> gBlockSizeShift := by
        rw [shift] at bound ⊢
        rw [block] at inside ⊢
        omega
      have still : ∀ state, [count].foldl (readBlock entries device bh cacheBitSet) state = state := fun state => if_pos skip
      have full : min ((count + 1) * gBlockSizeBytes) bh.bSize = min (count * gBlockSizeBytes) bh.bSize := by
        rw [block] at *
        omega
      rw [still,full]
      exact ⟨kept,filled⟩

theorem loop_keeps (reads : Bool) (buffer : Int → UInt8)
    (kept : SameMap entries cacheBitSet s t)
    (own : ∀ i, i * gBlockSizeBytes < bh.bSize → entries.Addressable (bh.bBlocknr + i)) :
    SameMap entries cacheBitSet s (bhSubmitReadSyncIOLoop entries device bh reads t buffer).1 := by
  have shift := bSize_blocks bh
  have block : gBlockSizeBytes = 4096 := rfl
  have run : ∀ (rounds : List Nat) (state : Store × (Int → UInt8)), (∀ i ∈ rounds, i ≤ bh.bSize >>> gBlockSizeShift) →
      SameMap entries cacheBitSet s state.1 →
      SameMap entries cacheBitSet s (rounds.foldl (readBlock entries device bh reads) state).1 := by
    intro rounds
    induction rounds with
    | nil => exact fun _ _ kept => kept
    | cons i rest ih =>
      intro state bound kept
      refine ih _ (fun j member => bound j (mem_cons_of_mem _ member)) ?_
      have here := bound i mem_cons_self
      unfold readBlock
      split
      · exact kept
      · rename_i round
        refine physical_keeps entries reads kept (own i ?_)
        rw [shift] at round here
        rw [block] at round ⊢
        omega
  exact run _ _ (fun i member => Nat.le_of_lt_succ (List.mem_range.mp member)) kept

theorem loop_filled (cacheBitSet : Bool) (buffer : Int → UInt8)
    (readable : bh.Readable) (formed : WellFormed entries s)
    (own : ∀ i, i * gBlockSizeBytes < bh.bSize → entries.Addressable (bh.bBlocknr + i)) :
    Filled buffer (bhSubmitReadSyncIOLoop entries device bh cacheBitSet s buffer).2
      (mappedByte entries device bh cacheBitSet s) 0 (bh.bSize : Int) := by
  have shift := bSize_blocks bh
  have block : gBlockSizeBytes = 4096 := rfl
  have whole : min (((bh.bSize >>> gBlockSizeShift) + 1) * gBlockSizeBytes) bh.bSize = bh.bSize := by
    rw [shift,block]
    omega
  have run := (readBlock_run entries device cacheBitSet buffer readable formed own _ le_rfl).2
  rw [whole] at run
  exact run

-- The last byte of a request of 2 GiB and one byte: the shift of the int `i` has turned negative.
theorem loop_tail_wraps (cacheBitSet : Bool) (s : Store) (buffer : Int → UInt8)
    (size : bh.bSize = 2 ^ 31 + 1) :
    ∃ pblk, (bhSubmitReadSyncIOLoop entries device bh cacheBitSet s buffer).2 (-2 ^ 31) = device (pblk * gBlockSizeBytes) := by
  have one : bh.bSize % gBlockSizeBytes = 1 := by rw [size]; decide
  have tail : bh.bSize % gBlockSizeBytes ≠ 0 := by rw [one]; decide
  have count : bh.bSize >>> gBlockSizeShift = 2 ^ 19 := by rw [size]; decide
  generalize last : bh.bSize >>> gBlockSizeShift = i at count
  have later : i ≠ 0 := by rw [count]; decide
  have position : ((i * gBlockSizeBytes : Nat) : Int).bmod (2 ^ 32) = -2 ^ 31 := by rw [count]; decide
  -- whatever the rounds before did, the last one writes one byte at this position
  unfold bhSubmitReadSyncIOLoop
  rw [last,range_succ,foldl_append,foldl_cons,List.foldl_nil,
    readBlock_tail entries device cacheBitSet _ later tail last.symm,position,one]
  have inside : (-2 ^ 31 : Int) < -2 ^ 31 + ((1 : Nat) : Int) := by decide
  unfold bhSubmitReadSyncIO
  rw [paste_inside (le_refl (-2 ^ 31 : Int)) inside,Int.sub_self,Int.toNat_zero,Nat.add_zero]
  exact ⟨_,rfl⟩

theorem loop_same_block (buffer : Int → UInt8) {offset size : Nat} {cacheK cacheL : Bool}
    (formed : WellFormed entries s) (ownK : entries.Addressable k) (ownL : entries.Addressable l) (some : 1 ≤ size)
    (inside : offset + size ≤ gBlockSizeBytes) (same : (physical entries cacheL s l).1 = (physical entries cacheK s k).1) :
    (bhSubmitReadSyncIOLoop entries device ⟨l,size,offset⟩ cacheL s buffer).2 =
      (bhSubmitReadSyncIOLoop entries device ⟨k,size,offset⟩ cacheK s buffer).2 := by
  have block : gBlockSizeBytes = 4096 := rfl
  rw [block] at inside
  have readable : ∀ b, BufferHead.Readable ⟨b,size,offset⟩ := fun b => ⟨some,by dsimp only; omega,.inr inside⟩
  have own : ∀ b, entries.Addressable b → ∀ i, i * gBlockSizeBytes < size → entries.Addressable (b + i) := fun b own i small => by
    have first : i = 0 := by rw [block] at small; omega
    rw [first]
    exact own
  have left := loop_filled entries device cacheL buffer (readable l) formed (own l ownL)
  have right := loop_filled entries device cacheK buffer (readable k) formed (own k ownK)
  funext x
  by_cases low : 0 ≤ x
  · by_cases high : x < (size : Int)
    · have place : (offset + x.toNat) / gBlockSizeBytes = 0 := by rw [block]; omega
      rw [left.inside x low high,right.inside x low high]
      unfold mappedByte
      dsimp only
      rw [place,Nat.add_zero,Nat.add_zero,same]
    · rw [left.outside x (.inr (le_of_not_gt high)),right.outside x (.inr (le_of_not_gt high))]
  · rw [left.outside x (.inl (by omega)),right.outside x (.inl (by omega))]

end

end Loop

section Device
variable (g : Geometry) (n : Nat) (fits : g.base + n * sizeofMlfsMapBlocks ≤ 2 ^ 32)

theorem nvm_formed (memory : Bytes) : WellFormed (nvm g n fits) memory := fun _ _ =>
  ⟨load_lt _ _ 8,load_lt _ _ 4,load_lt _ _ 4,load_lt _ _ 4⟩

theorem loop_reads_request (memory device : Bytes) (bh : BufferHead) (cacheBitSet : Bool) (buffer : Int → UInt8)
    (some : 1 ≤ bh.bSize) (short : bh.bSize ≤ 2 ^ 31) (shape : bh.bOffset = 0 ∨ bh.bOffset + bh.bSize ≤ gBlockSizeBytes)
    (own : bh.bBlocknr + (bh.bSize - 1) / gBlockSizeBytes < n) :
    let filled := (bhSubmitReadSyncIOLoop (nvm g n fits) device bh cacheBitSet memory buffer).2
    (∀ x : Nat, x < bh.bSize → filled x =
      device ((physical (nvm g n fits) cacheBitSet memory (bh.bBlocknr + (bh.bOffset + x) / gBlockSizeBytes)).1 * gBlockSizeBytes +
        (bh.bOffset + x) % gBlockSizeBytes)) ∧
    ∀ x : Int, x < 0 ∨ (bh.bSize : Int) ≤ x → filled x = buffer x := by
  have block : gBlockSizeBytes = 4096 := rfl
  have blocks : ∀ i, i * gBlockSizeBytes < bh.bSize → (nvm g n fits).Addressable (bh.bBlocknr + i) := fun i inside => by
    show bh.bBlocknr + i < n
    rw [block] at own inside
    omega
  have filled := loop_filled (nvm g n fits) device cacheBitSet buffer ⟨some,short,shape⟩ (nvm_formed g n fits memory) blocks
  exact ⟨fun x inside => filled.inside x (by omega) (by omega),filled.outside⟩

theorem loop_reads_three_blocks :
    let filled := (bhSubmitReadSyncIOLoop defaultTable (fun _ => 1) ⟨600000,10000,0⟩ false (fun _ => 0) (fun _ => 7)).2
    filled 9999 = 1 ∧ ∀ x : Int, x < 0 ∨ 10000 ≤ x → filled x = 7 := by
  have right := loop_reads_request _ _ default_fits (fun _ => 0) (fun _ => 1) ⟨600000,10000,0⟩ false (fun _ => 7) (by decide) (by decide)
    (.inl rfl) (by decide)
  exact ⟨right.1 9999 (by decide),right.2⟩

-- Past 2 GiB the shift of the int `i` turns negative: the last byte of this request is written 2 GiB before the buffer.
theorem loop_writes_before_buffer :
    (bhSubmitReadSyncIOLoop defaultTable (fun _ => 1) ⟨0,2 ^ 31 + 1,0⟩ false (fun _ => 0) (fun _ => 0)).2 (-2 ^ 31) = 1 := by
  obtain ⟨_,written⟩ := loop_tail_wraps defaultTable (fun _ => 1) false (fun _ => 0) (fun _ => 0)
    (rfl : (⟨0,2 ^ 31 + 1,0⟩ : BufferHead).bSize = 2 ^ 31 + 1)
  exact written

theorem cached_log_reads (memory : Bytes) (zero : ∀ a, g.base ≤ a → a < g.base + n * sizeofMlfsMapBlocks → memory a = 0)
    (before after : List MapOp) (swap : MapOp) (k l : Nat) (swapped : swap = .update k l ∨ swap = .update l k)
    (valid : ∀ op ∈ before ++ swap :: after, op.Valid n) (last : ∀ op ∈ after, ¬ op.Swaps k ∧ ¬ op.Swaps l) :
    let entries := nvm g n fits
    let reached := runOps entries memory (before ++ swap :: after)
    cacheBit entries reached l →
      (lblk2pblk4cache entries reached l).1 = (lblk2pblk entries reached k).1 ∧
      ∀ device buffer offset size, 1 ≤ size → offset + size ≤ gBlockSizeBytes →
        (bhSubmitReadSyncIOLoop entries device ⟨l,size,offset⟩ true reached buffer).2 =
          (bhSubmitReadSyncIOLoop entries device ⟨k,size,offset⟩ false reached buffer).2 := by
  intro entries reached set
  have own : ∀ b, b < n → entries.Addressable b := fun b small => small
  have kept := runOps_lends entries (nvm_zero g n fits memory zero) own swapped valid last
  have same : (lblk2pblk4cache entries reached l).1 = (lblk2pblk entries reached k).1 := by
    rw [lblk2pblk4cache_cachedHome entries reached (own l kept.2.1),lblk2pblk_home]
    exact kept.2.2 set
  refine ⟨same,fun device buffer offset size some inside => ?_⟩
  rw [←physical_cached,←physical_plain] at same
  exact loop_same_block entries device buffer (nvm_formed g n fits reached) (own k kept.1) (own l kept.2.1) some inside same

theorem cached_log_reads_default :
    let reached := runOps defaultTable (fun _ => 0) ([.lookup 7] ++ .update 600000 41 :: [.lookup 41,.update 600001 42])
    cacheBit defaultTable reached 41 ∧ (lblk2pblk4cache defaultTable reached 41).1 = (lblk2pblk defaultTable reached 600000).1 := by
  have set : cacheBit defaultTable (runOps defaultTable (fun _ => 0)
      ([.lookup 7] ++ .update 600000 41 :: [.lookup 41,.update 600001 42])) 41 := by
    unfold cacheBit
    decide +kernel
  exact ⟨set,(cached_log_reads _ _ default_fits (fun _ => 0) (fun _ _ _ => rfl) [.lookup 7] [.lookup 41,.update 600001 42]
    (.update 600000 41) 600000 41 (.inl rfl) (by simp [MapOp.Valid]) (by simp [MapOp.Swaps]) set).1⟩

-- On 1 TiB the entry of block 87773527 starts 8 bytes before that of the log block 266730498, so that its flags are the
-- other's previous home.
theorem overlapping_entry_moves_cached_home :
    let entries := wrappedNvm ⟨266862592,1572864,0⟩
    let reached := runOps entries (fun _ => 0) [.update 40000 266730498,.update 87773527 266730499]
    cacheBit entries reached 266730498 ∧ (lblk2pblk4cache entries reached 266730498).1 = 266730499 ∧
      (lblk2pblk entries reached 40000).1 = 266730498 := by
  unfold cacheBit
  decide +kernel

end Device

end Assise.MapTable
