import Mathlib.Data.Set.Function
import Mathlib.Data.Set.Card
import Mathlib.GroupTheory.Perm.Basic
import Mathlib.Order.Interval.Finset.Nat
import Mathlib.Tactic.NormNum
import Assise.Lib.Memory

-- The block map table: one entry per logical block, kept in NVM and created by the first read of it. KernFS digests
-- aligned log data by exchanging the physical blocks of two entries.
namespace Assise.MapTable
open Lib.Memory

def gBlockSizeShift : Nat := 12
def gBlockSizeBytes : Nat := 4096

-- MLFS_MAP_UNCACHE has the value of MLFS_MAP_INIT in the source.
def mlfsMapUninit : Nat := 0
def mlfsMapInit : Nat := 1
def mlfsMapUncache : Nat := 1
def mlfsMapCache : Nat := 2

-- struct mlfs_map_blocks: 8 + 4 + 4 + 4 bytes and 4 of padding. In the map table m_lblk is the previous physical
-- block, read while the cache bit is set.
structure MlfsMapBlocks where
  mPblk : Nat
  mLblk : Nat
  mLen : Nat
  mFlags : Nat
deriving DecidableEq, Repr

def sizeofMlfsMapBlocks : Nat := 24

structure MlfsMapBlocks.Fits (data : MlfsMapBlocks) : Prop where
  pblk : data.mPblk < 2 ^ 64
  lblk : data.mLblk < 2 ^ 32
  len : data.mLen < 2 ^ 32
  flags : data.mFlags < 2 ^ 32

-- Where entries are kept. The map table functions below use only the two helpers;
-- the laws are asked for the block numbers that have an entry of their own.
structure EntryStore (Store : Type) where
  getMapEntryHelper : Store → Nat → MlfsMapBlocks
  setMapEntryHelper : Store → Nat → MlfsMapBlocks → Store
  Addressable : Nat → Prop
  get_set_same : ∀ s b data, Addressable b → data.Fits → getMapEntryHelper (setMapEntryHelper s b data) b = data
  get_set_other : ∀ s a b data, Addressable a → Addressable b → a ≠ b →
    getMapEntryHelper (setMapEntryHelper s a data) b = getMapEntryHelper s b
  addressable_fits : ∀ b, Addressable b → b < 2 ^ 32

section Functions
variable {Store : Type} (entries : EntryStore Store)

def getMapTableEntry (s : Store) (lblk : Nat) : MlfsMapBlocks × Store :=
  let data := entries.getMapEntryHelper s lblk
  if data.mFlags &&& mlfsMapInit = mlfsMapUninit then
    let fresh : MlfsMapBlocks :=
      { mPblk := lblk
        mLblk := lblk % 2 ^ 32
        mLen := gBlockSizeBytes
        mFlags := data.mFlags ||| mlfsMapInit }
    (fresh,entries.setMapEntryHelper s lblk fresh)
  else (data,s)

def setMapTableEntry (s : Store) (lblk : Nat) (data : MlfsMapBlocks) : Store :=
  entries.setMapEntryHelper s lblk data

def lblk2pblk (s : Store) (lblk : Nat) : Nat × Store :=
  let (data,next) := getMapTableEntry entries s lblk
  (data.mPblk,next)

-- LibFS reads a log block that was just swapped away at its previous home.
def lblk2pblk4cache (s : Store) (lblk : Nat) : Nat × Store :=
  let (data,next) := getMapTableEntry entries s lblk
  (if data.mFlags &&& mlfsMapCache = mlfsMapCache then data.mLblk else data.mPblk,next)

-- The two new entries of `update_map_table`. The flags of the second entry are
-- copied from the first, twice, as in the source.
def swapEntries (kernfsLblk libfsLblk : Nat) (kernfsMap libfsMap : MlfsMapBlocks) :
    MlfsMapBlocks × MlfsMapBlocks :=
  let kernfsHome := if kernfsMap.mFlags &&& mlfsMapInit = mlfsMapInit then kernfsMap.mPblk else kernfsLblk
  let libfsHome := if libfsMap.mFlags &&& mlfsMapInit = mlfsMapInit then libfsMap.mPblk else libfsLblk
  let initialised := kernfsMap.mFlags ||| mlfsMapInit
  let cached := initialised ||| mlfsMapCache
  ({ kernfsMap with mPblk := libfsHome,mLblk := kernfsHome % 2 ^ 32,mFlags := cached },
    { libfsMap with mPblk := kernfsHome,mLblk := libfsHome % 2 ^ 32,mFlags := cached ||| mlfsMapCache })

def updateMapTable (s : Store) (kernfsLblk libfsLblk : Nat) : Store :=
  let (kernfsMap,s) := getMapTableEntry entries s kernfsLblk
  let (libfsMap,s) := getMapTableEntry entries s libfsLblk
  let (kernfsNew,libfsNew) := swapEntries kernfsLblk libfsLblk kernfsMap libfsMap
  let s := setMapTableEntry entries s kernfsLblk kernfsNew
  let s := setMapTableEntry entries s libfsLblk libfsNew
  -- the two reads kept for debugging
  let (_,s) := getMapTableEntry entries s kernfsLblk
  let (_,s) := getMapTableEntry entries s libfsLblk
  s

def unsetMapTableEntryCacheBit (s : Store) (lblk : Nat) : Store :=
  let (data,s) := getMapTableEntry entries s lblk
  setMapTableEntry entries s lblk { data with mFlags := (data.mFlags &&& mlfsMapUncache) &&& data.mFlags }

end Functions

structure Geometry where
  mapTableStart : Nat
  nmapblocks : Nat
  libfsId : Nat

def Geometry.base (g : Geometry) : Nat :=
  g.mapTableStart * gBlockSizeBytes + g.libfsId * g.nmapblocks * gBlockSizeBytes

-- The address is computed in 64 bits and kept in a uint32_t.
def getBlknoAndOffset (g : Geometry) (lblk : Nat) : Nat × Nat :=
  let addr := (g.base + lblk * sizeofMlfsMapBlocks) % 2 ^ 32
  (addr >>> gBlockSizeShift,addr % gBlockSizeBytes)

def entryAddress (g : Geometry) (lblk : Nat) : Nat :=
  let (blkno,offset) := getBlknoAndOffset g lblk
  blkno * gBlockSizeBytes + offset

def readEntry (memory : Bytes) (address : Nat) : MlfsMapBlocks :=
  { mPblk := load memory address 8
    mLblk := load memory (address + 8) 4
    mLen := load memory (address + 12) 4
    mFlags := load memory (address + 16) 4 }

-- Every write of an entry follows a read of the same entry, so its padding bytes are written back as they were.
def writeEntry (memory : Bytes) (address : Nat) (data : MlfsMapBlocks) : Bytes :=
  store (store (store (store memory address 8 data.mPblk) (address + 8) 4 data.mLblk)
    (address + 12) 4 data.mLen) (address + 16) 4 data.mFlags

theorem readEntry_writeEntry (memory : Bytes) (address : Nat) (data : MlfsMapBlocks) (fits : data.Fits) :
    readEntry (writeEntry memory address data) address = data := by
  obtain ⟨pblk,lblk,len,flags⟩ := fits
  have first : load (writeEntry memory address data) address 8 = data.mPblk := by
    unfold writeEntry
    rw [load_store_disjoint _ _ _ _ _ _ (by omega),load_store_disjoint _ _ _ _ _ _ (by omega),
      load_store_disjoint _ _ _ _ _ _ (by omega),load_store _ _ _ _ (by simpa using pblk)]
  have second : load (writeEntry memory address data) (address + 8) 4 = data.mLblk := by
    unfold writeEntry
    rw [load_store_disjoint _ _ _ _ _ _ (by omega),load_store_disjoint _ _ _ _ _ _ (by omega),
      load_store _ _ _ _ (by simpa using lblk)]
  have third : load (writeEntry memory address data) (address + 12) 4 = data.mLen := by
    unfold writeEntry
    rw [load_store_disjoint _ _ _ _ _ _ (by omega),load_store _ _ _ _ (by simpa using len)]
  have fourth : load (writeEntry memory address data) (address + 16) 4 = data.mFlags := by
    unfold writeEntry
    rw [load_store _ _ _ _ (by simpa using flags)]
  simp [readEntry,first,second,third,fourth]

theorem readEntry_writeEntry_other (memory : Bytes) (address other : Nat) (data : MlfsMapBlocks)
    (disjoint : other + sizeofMlfsMapBlocks ≤ address ∨ address + sizeofMlfsMapBlocks ≤ other) :
    readEntry (writeEntry memory address data) other = readEntry memory other := by
  simp only [sizeofMlfsMapBlocks] at disjoint
  unfold readEntry writeEntry
  iterate 4 rw [load_store_disjoint _ _ _ _ _ _ (by omega),load_store_disjoint _ _ _ _ _ _ (by omega),
    load_store_disjoint _ _ _ _ _ _ (by omega),load_store_disjoint _ _ _ _ _ _ (by omega)]

theorem entryAddress_eq (g : Geometry) (n lblk : Nat) (fits : g.base + n * sizeofMlfsMapBlocks ≤ 2 ^ 32)
    (small : lblk < n) : entryAddress g lblk = g.base + lblk * sizeofMlfsMapBlocks := by
  simp only [entryAddress,getBlknoAndOffset,gBlockSizeBytes,gBlockSizeShift,sizeofMlfsMapBlocks] at *
  rw [Nat.mod_eq_of_lt (by omega),Nat.shiftRight_eq_div_pow]
  omega

theorem default_fits : (⟨781824,4608,0⟩ : Geometry).base + 786432 * sizeofMlfsMapBlocks ≤ 2 ^ 32 := by decide

def nvm (g : Geometry) (n : Nat) (fits : g.base + n * sizeofMlfsMapBlocks ≤ 2 ^ 32) : EntryStore Bytes where
  getMapEntryHelper memory lblk := readEntry memory (entryAddress g lblk)
  setMapEntryHelper memory lblk data := writeEntry memory (entryAddress g lblk) data
  Addressable lblk := lblk < n
  get_set_same memory b data _ small := readEntry_writeEntry memory (entryAddress g b) data small
  get_set_other memory a b data smallA smallB distinct := by
    refine readEntry_writeEntry_other memory (entryAddress g a) (entryAddress g b) data ?_
    rw [entryAddress_eq g n a fits smallA,entryAddress_eq g n b fits smallB]
    simp only [sizeofMlfsMapBlocks]
    omega
  addressable_fits b small := by
    simp only [sizeofMlfsMapBlocks] at fits
    omega

def defaultTable : EntryStore Bytes := nvm ⟨781824,4608,0⟩ 786432 default_fits

-- Entries wherever their addresses fall: on a larger device these wrap, and entries overlap.
def wrappedNvm (g : Geometry) : EntryStore Bytes where
  getMapEntryHelper memory lblk := readEntry memory (entryAddress g lblk)
  setMapEntryHelper memory lblk data := writeEntry memory (entryAddress g lblk) data
  Addressable _ := False
  get_set_same _ _ _ := False.elim
  get_set_other _ _ _ _ := False.elim
  addressable_fits _ := False.elim

-- The same table as a function, which the rest of the development runs on.
abbrev Table := Nat → MlfsMapBlocks

def Table.set (t : Table) (lblk : Nat) (data : MlfsMapBlocks) : Table :=
  fun b => if b = lblk then data else t b

def Table.empty : Table := fun _ => ⟨0,0,0,0⟩

def table : EntryStore Table where
  getMapEntryHelper t lblk := t lblk
  setMapEntryHelper t lblk data := t.set lblk data
  Addressable lblk := lblk < 2 ^ 32
  get_set_same t b data _ _ := by simp [Table.set]
  get_set_other t a b data _ _ distinct := by simp [Table.set,Ne.symm distinct]
  addressable_fits _ small := small

section Homes
variable {Store : Type} (entries : EntryStore Store)

def home (s : Store) (lblk : Nat) : Nat :=
  let data := entries.getMapEntryHelper s lblk
  if data.mFlags &&& mlfsMapInit = mlfsMapUninit then lblk else data.mPblk

def WellFormed (s : Store) : Prop :=
  ∀ b, entries.Addressable b → (entries.getMapEntryHelper s b).Fits

theorem init_or_uninit (flags : Nat) : flags &&& mlfsMapInit = mlfsMapUninit ∨ flags &&& mlfsMapInit = mlfsMapInit := by
  simp only [mlfsMapInit,mlfsMapUninit,Nat.and_one_is_mod]
  omega

theorem or_init (flags : Nat) : (flags ||| mlfsMapInit) &&& mlfsMapInit = mlfsMapInit := by
  rw [Nat.and_comm,Nat.and_or_distrib_left,Nat.and_comm]
  rcases init_or_uninit flags with clear | set
  · rw [clear]; rfl
  · rw [set]; rfl

theorem or_cache_init (flags : Nat) : (flags ||| mlfsMapCache) &&& mlfsMapInit = flags &&& mlfsMapInit := by
  rw [Nat.and_comm,Nat.and_or_distrib_left,Nat.and_comm]
  exact Nat.or_zero _

theorem uncache_init (flags : Nat) :
    ((flags &&& mlfsMapUncache) &&& flags) &&& mlfsMapInit = flags &&& mlfsMapInit := by
  have same : mlfsMapUncache = mlfsMapInit := rfl
  rw [same,Nat.and_comm (flags &&& mlfsMapInit) flags,← Nat.and_assoc,Nat.and_self,Nat.and_assoc,Nat.and_self]

theorem init_ne_uninit : mlfsMapInit ≠ mlfsMapUninit := by decide

theorem lblk2pblk_home (s : Store) (lblk : Nat) : (lblk2pblk entries s lblk).1 = home entries s lblk := by
  unfold lblk2pblk getMapTableEntry home
  dsimp only
  split <;> rfl

theorem lblk2pblk_store (s : Store) (lblk : Nat) :
    (lblk2pblk entries s lblk).2 = (getMapTableEntry entries s lblk).2 := rfl

theorem lblk2pblk4cache_store (s : Store) (lblk : Nat) :
    (lblk2pblk4cache entries s lblk).2 = (getMapTableEntry entries s lblk).2 := rfl

theorem set_spec (s : Store) (b : Nat) (data : MlfsMapBlocks) (formed : WellFormed entries s)
    (own : entries.Addressable b) (fits : data.Fits) (init : data.mFlags &&& mlfsMapInit = mlfsMapInit) :
    WellFormed entries (setMapTableEntry entries s b data) ∧
    ∀ c, entries.Addressable c →
      home entries (setMapTableEntry entries s b data) c = if c = b then data.mPblk else home entries s c := by
  constructor
  · intro c ownC
    by_cases same : c = b
    · subst same
      rwa [setMapTableEntry,entries.get_set_same s c data own fits]
    · rw [setMapTableEntry,entries.get_set_other s b c data own ownC (Ne.symm same)]
      exact formed c ownC
  · intro c ownC
    unfold home setMapTableEntry
    by_cases same : c = b
    · subst same
      rw [entries.get_set_same s c data own fits,if_pos rfl]
      simp [init,init_ne_uninit]
    · rw [entries.get_set_other s b c data own ownC (Ne.symm same),if_neg same]

structure ReadSpec (s : Store) (lblk : Nat) (data : MlfsMapBlocks) (next : Store) : Prop where
  fits : data.Fits
  init : data.mFlags &&& mlfsMapInit = mlfsMapInit
  pblk : data.mPblk = home entries s lblk
  formed : WellFormed entries next
  homes : ∀ c, entries.Addressable c → home entries next c = home entries s c

theorem getMapTableEntry_spec (s : Store) (lblk : Nat) (formed : WellFormed entries s)
    (own : entries.Addressable lblk) :
    ReadSpec entries s lblk (getMapTableEntry entries s lblk).1 (getMapTableEntry entries s lblk).2 := by
  have old := formed lblk own
  have range := entries.addressable_fits lblk own
  unfold getMapTableEntry
  rcases init_or_uninit (entries.getMapEntryHelper s lblk).mFlags with clear | set
  · -- the entry is created: it maps the block to itself
    rw [if_pos clear]
    have fresh : MlfsMapBlocks.Fits ⟨lblk,lblk % 2 ^ 32,gBlockSizeBytes,
        (entries.getMapEntryHelper s lblk).mFlags ||| mlfsMapInit⟩ :=
      ⟨by simp only; omega,Nat.mod_lt _ (by decide),by simp [gBlockSizeBytes],Nat.or_lt_two_pow old.flags (by decide)⟩
    have written := set_spec entries s lblk _ formed own fresh (or_init _)
    refine ⟨fresh,or_init _,?_,written.1,?_⟩
    · simp [home,clear]
    · intro c ownC
      refine (written.2 c ownC).trans ?_
      split
      · rename_i same; subst same; simp [home,clear]
      · rfl
  · rw [if_neg (by rw [set]; exact init_ne_uninit)]
    refine ⟨old,set,?_,formed,fun c _ => rfl⟩
    simp [home,set,init_ne_uninit]

theorem swapEntries_spec (k l : Nat) (kernfsMap libfsMap : MlfsMapBlocks) (fitsK : kernfsMap.Fits)
    (fitsL : libfsMap.Fits) (initK : kernfsMap.mFlags &&& mlfsMapInit = mlfsMapInit)
    (initL : libfsMap.mFlags &&& mlfsMapInit = mlfsMapInit) :
    let new := swapEntries k l kernfsMap libfsMap
    (new.1.Fits ∧ new.1.mFlags &&& mlfsMapInit = mlfsMapInit ∧ new.1.mPblk = libfsMap.mPblk) ∧
    (new.2.Fits ∧ new.2.mFlags &&& mlfsMapInit = mlfsMapInit ∧ new.2.mPblk = kernfsMap.mPblk) := by
  have bound : kernfsMap.mFlags ||| mlfsMapInit ||| mlfsMapCache < 2 ^ 32 :=
    Nat.or_lt_two_pow (Nat.or_lt_two_pow fitsK.flags (by decide)) (by decide)
  dsimp only [swapEntries]
  rw [if_pos initK,if_pos initL]
  refine ⟨⟨⟨fitsL.pblk,Nat.mod_lt _ (by decide),fitsK.len,bound⟩,?_,rfl⟩,
    ⟨⟨fitsK.pblk,Nat.mod_lt _ (by decide),fitsL.len,Nat.or_lt_two_pow bound (by decide)⟩,?_,rfl⟩⟩
  · rw [or_cache_init,or_init]
  · rw [or_cache_init,or_cache_init,or_init]

theorem updateMapTable_spec (s : Store) (k l : Nat) (formed : WellFormed entries s)
    (ownK : entries.Addressable k) (ownL : entries.Addressable l) (distinct : k ≠ l) :
    WellFormed entries (updateMapTable entries s k l) ∧
    ∀ c, entries.Addressable c →
      home entries (updateMapTable entries s k l) c = home entries s (Equiv.swap k l c) := by
  have readK := getMapTableEntry_spec entries s k formed ownK
  have readL := getMapTableEntry_spec entries (getMapTableEntry entries s k).2 l readK.formed ownL
  have new := swapEntries_spec k l _ _ readK.fits readL.fits readK.init readL.init
  have setK := set_spec entries _ k _ readL.formed ownK new.1.1 new.1.2.1
  have setL := set_spec entries _ l _ setK.1 ownL new.2.1 new.2.2.1
  have againK := getMapTableEntry_spec entries _ k setL.1 ownK
  have againL := getMapTableEntry_spec entries _ l againK.formed ownL
  refine ⟨againL.formed,fun c own => ?_⟩
  have homes : home entries (updateMapTable entries s k l) c =
      if c = l then home entries s k else if c = k then home entries s l else home entries s c := by
    refine (againL.homes c own).trans ((againK.homes c own).trans ?_)
    rw [setL.2 c own,setK.2 c own,new.1.2.2,new.2.2.2,readK.pblk,readL.pblk,readK.homes l ownL,
      readL.homes c own,readK.homes c own]
  rw [homes]
  by_cases first : c = k
  · subst first; simp [distinct,Equiv.swap_apply_left]
  · by_cases second : c = l
    · subst second; simp [Equiv.swap_apply_right]
    · simp [first,second,Equiv.swap_apply_of_ne_of_ne first second]

theorem unsetMapTableEntryCacheBit_spec (s : Store) (b : Nat) (formed : WellFormed entries s)
    (own : entries.Addressable b) :
    WellFormed entries (unsetMapTableEntryCacheBit entries s b) ∧
    ∀ c, entries.Addressable c → home entries (unsetMapTableEntryCacheBit entries s b) c = home entries s c := by
  have read := getMapTableEntry_spec entries s b formed own
  have fits : MlfsMapBlocks.Fits { (getMapTableEntry entries s b).1 with
      mFlags := ((getMapTableEntry entries s b).1.mFlags &&& mlfsMapUncache) &&& (getMapTableEntry entries s b).1.mFlags } :=
    ⟨read.fits.pblk,read.fits.lblk,read.fits.len,Nat.and_lt_two_pow _ read.fits.flags⟩
  have written := set_spec entries _ b _ read.formed own fits (by rw [uncache_init,read.init])
  refine ⟨written.1,fun c ownC => (written.2 c ownC).trans ?_⟩
  rw [read.homes c ownC]
  split
  · rename_i same; subst same; exact read.pblk
  · rfl

end Homes

section Runs
variable {Store : Type} (entries : EntryStore Store)

inductive MapOp where
  | lookup (lblk : Nat)
  | lookupCache (lblk : Nat)
  | update (kernfsLblk libfsLblk : Nat)
  | resetCacheBit (lblk : Nat)

def MapOp.apply (s : Store) : MapOp → Store
  | .lookup lblk => (lblk2pblk entries s lblk).2
  | .lookupCache lblk => (lblk2pblk4cache entries s lblk).2
  | .update kernfsLblk libfsLblk => updateMapTable entries s kernfsLblk libfsLblk
  | .resetCacheBit lblk => unsetMapTableEntryCacheBit entries s lblk

def runOps (s : Store) (ops : List MapOp) : Store := ops.foldl (MapOp.apply entries) s

def MapOp.Valid (n : Nat) : MapOp → Prop
  | .lookup lblk | .lookupCache lblk | .resetCacheBit lblk => lblk < n
  | .update kernfsLblk libfsLblk => kernfsLblk < n ∧ libfsLblk < n ∧ kernfsLblk ≠ libfsLblk

-- What the table is for: a permutation of block numbers that only an update changes, by one transposition.
def MapOp.remap (σ : Equiv.Perm Nat) : MapOp → Equiv.Perm Nat
  | .update kernfsLblk libfsLblk => σ * Equiv.swap kernfsLblk libfsLblk
  | .lookup _ | .lookupCache _ | .resetCacheBit _ => σ

structure Refines (n : Nat) (s : Store) (σ : Equiv.Perm Nat) : Prop where
  formed : WellFormed entries s
  homes : ∀ b, b < n → home entries s b = σ b
  stable : ∀ b, b < n → σ b < n

variable {n : Nat}

theorem Refines.of_homes {s next : Store} {σ : Equiv.Perm Nat} (old : Refines entries n s σ)
    (formed : WellFormed entries next) (homes : ∀ b, b < n → home entries next b = home entries s b) :
    Refines entries n next σ :=
  ⟨formed,fun b small => (homes b small).trans (old.homes b small),old.stable⟩

theorem swap_lt {k l b : Nat} (smallK : k < n) (smallL : l < n) (small : b < n) : Equiv.swap k l b < n := by
  rw [Equiv.swap_apply_def]
  split_ifs <;> assumption

theorem apply_refines (n : Nat) (own : ∀ b, b < n → entries.Addressable b) (s : Store) (σ : Equiv.Perm Nat)
    (op : MapOp) (old : Refines entries n s σ) (valid : op.Valid n) :
    Refines entries n (op.apply entries s) (op.remap σ) := by
  cases op with
  | lookup lblk | lookupCache lblk =>
    have read := getMapTableEntry_spec entries s lblk old.formed (own lblk valid)
    exact old.of_homes entries read.formed (fun b small => read.homes b (own b small))
  | resetCacheBit lblk =>
    have reset := unsetMapTableEntryCacheBit_spec entries s lblk old.formed (own lblk valid)
    exact old.of_homes entries reset.1 (fun b small => reset.2 b (own b small))
  | update k l =>
    obtain ⟨smallK,smallL,distinct⟩ := valid
    have swapped := updateMapTable_spec entries s k l old.formed (own k smallK) (own l smallL) distinct
    refine ⟨swapped.1,fun b small => ?_,fun b small => old.stable _ (swap_lt smallK smallL small)⟩
    rw [MapOp.apply,swapped.2 b (own b small),old.homes _ (swap_lt smallK smallL small)]
    rfl

theorem runOps_refines (n : Nat) (own : ∀ b, b < n → entries.Addressable b) (s : Store) (σ : Equiv.Perm Nat)
    (ops : List MapOp) (old : Refines entries n s σ) (valid : ∀ op ∈ ops, op.Valid n) :
    Refines entries n (runOps entries s ops) (ops.foldl MapOp.remap σ) := by
  induction ops generalizing s σ with
  | nil => exact old
  | cons op rest ih =>
    have first := apply_refines entries n own s σ op old (valid op (by simp))
    exact ih (op.apply entries s) (op.remap σ) first (fun later member => valid later (by simp [member]))

theorem Refines.bijOn {s : Store} {σ : Equiv.Perm Nat} (refines : Refines entries n s σ) :
    Set.BijOn (fun b => (lblk2pblk entries s b).1) (Set.Iio n) (Set.Iio n) := by
  have same : Set.EqOn (fun b => (lblk2pblk entries s b).1) σ (Set.Iio n) := fun b small => by
    simp only [lblk2pblk_home]
    exact refines.homes b small
  have maps : Set.MapsTo σ (Set.Iio n) (Set.Iio n) := fun b small => refines.stable b small
  have image : σ '' Set.Iio n = Set.Iio n :=
    Set.eq_of_subset_of_ncard_le maps.image_subset
      (Set.ncard_image_of_injective _ σ.injective).ge (Set.finite_Iio n)
  exact (Set.BijOn.mk maps σ.injective.injOn image.ge).congr same.symm

theorem update_exchanges (s : Store) (k l : Nat) (formed : WellFormed entries s)
    (ownK : entries.Addressable k) (ownL : entries.Addressable l) (distinct : k ≠ l) :
    (lblk2pblk entries (updateMapTable entries s k l) k).1 = (lblk2pblk entries s l).1 ∧
    (lblk2pblk entries (updateMapTable entries s k l) l).1 = (lblk2pblk entries s k).1 ∧
    ∀ b, entries.Addressable b → b ≠ k → b ≠ l →
      (lblk2pblk entries (updateMapTable entries s k l) b).1 = (lblk2pblk entries s b).1 := by
  simp only [lblk2pblk_home]
  have swapped := (updateMapTable_spec entries s k l formed ownK ownL distinct).2
  refine ⟨?_,?_,fun b own first second => ?_⟩
  · rw [swapped k ownK,Equiv.swap_apply_left]
  · rw [swapped l ownL,Equiv.swap_apply_right]
  · rw [swapped b own,Equiv.swap_apply_of_ne_of_ne first second]

theorem lookups_move_nothing (s : Store) (c b : Nat) (formed : WellFormed entries s)
    (ownC : entries.Addressable c) (own : entries.Addressable b) :
    (lblk2pblk entries (lblk2pblk entries s c).2 b).1 = (lblk2pblk entries s b).1 ∧
    (lblk2pblk entries (lblk2pblk4cache entries s c).2 b).1 = (lblk2pblk entries s b).1 ∧
    (lblk2pblk entries (unsetMapTableEntryCacheBit entries s c) b).1 = (lblk2pblk entries s b).1 := by
  simp only [lblk2pblk_home,lblk2pblk_store,lblk2pblk4cache_store]
  have read := getMapTableEntry_spec entries s c formed ownC
  have reset := unsetMapTableEntryCacheBit_spec entries s c formed ownC
  exact ⟨read.homes b own,read.homes b own,reset.2 b own⟩

end Runs

theorem nvm_zero (g : Geometry) (n : Nat) (fits : g.base + n * sizeofMlfsMapBlocks ≤ 2 ^ 32) (memory : Bytes)
    (zero : ∀ a, g.base ≤ a → a < g.base + n * sizeofMlfsMapBlocks → memory a = 0) :
    Refines (nvm g n fits) n memory 1 := by
  have entry : ∀ b, b < n → readEntry memory (entryAddress g b) = ⟨0,0,0,0⟩ := by
    intro b small
    have inside : ∀ i, i < 24 → memory (g.base + b * sizeofMlfsMapBlocks + i) = 0 := fun i bound =>
      zero _ (by omega) (by simp only [sizeofMlfsMapBlocks] at *; omega)
    rw [entryAddress_eq g n b fits small]
    unfold readEntry
    rw [load_zero _ _ 8 (fun i bound => inside i (by omega)),
      load_zero _ _ 4 (fun i bound => by rw [add_assoc]; exact inside _ (by omega)),
      load_zero _ _ 4 (fun i bound => by rw [add_assoc]; exact inside _ (by omega)),
      load_zero _ _ 4 (fun i bound => by rw [add_assoc]; exact inside _ (by omega))]
  refine ⟨fun b small => ?_,fun b small => ?_,fun b small => small⟩
  · simp only [nvm] at small ⊢
    rw [entry b small]
    exact ⟨by decide,by decide,by decide,by decide⟩
  · simp only [home,nvm,entry b small]
    rfl

theorem lblk2pblk_permutation (g : Geometry) (n : Nat) (fits : g.base + n * sizeofMlfsMapBlocks ≤ 2 ^ 32)
    (memory : Bytes) (zero : ∀ a, g.base ≤ a → a < g.base + n * sizeofMlfsMapBlocks → memory a = 0)
    (ops : List MapOp) (valid : ∀ op ∈ ops, op.Valid n) :
    let entries := nvm g n fits
    let reached := runOps entries memory ops
    let pblk := fun s b => (lblk2pblk entries s b).1
    Set.BijOn (pblk reached) (Set.Iio n) (Set.Iio n) ∧
    (∀ k l, k < n → l < n → k ≠ l →
      pblk (updateMapTable entries reached k l) k = pblk reached l ∧
      pblk (updateMapTable entries reached k l) l = pblk reached k ∧
      ∀ b, b < n → b ≠ k → b ≠ l → pblk (updateMapTable entries reached k l) b = pblk reached b) ∧
    (∀ c b, c < n → b < n →
      pblk (lblk2pblk entries reached c).2 b = pblk reached b ∧
      pblk (lblk2pblk4cache entries reached c).2 b = pblk reached b ∧
      pblk (unsetMapTableEntryCacheBit entries reached c) b = pblk reached b) := by
  have refines := runOps_refines (nvm g n fits) n (fun b small => small) memory 1 ops
    (nvm_zero g n fits memory zero) valid
  exact ⟨refines.bijOn,
    fun k l smallK smallL distinct => update_exchanges (nvm g n fits) _ k l refines.formed smallK smallL distinct,
    fun c b smallC small => lookups_move_nothing (nvm g n fits) _ c b refines.formed smallC small⟩

theorem lblk2pblk_permutation_default :
    Set.BijOn (fun b => (lblk2pblk defaultTable (runOps defaultTable (fun _ => 0)
      [.lookup 7,.update 600000 41,.resetCacheBit 41,.update 600001 41]) b).1) (Set.Iio 786432) (Set.Iio 786432) :=
  (lblk2pblk_permutation _ _ default_fits (fun _ => 0) (fun _ _ _ => rfl) _ (by simp [MapOp.Valid])).1

-- The table in NVM and the function that stands for it translate every block alike.
theorem nvm_translates_as_table (g : Geometry) (n : Nat) (fits : g.base + n * sizeofMlfsMapBlocks ≤ 2 ^ 32) (memory : Bytes)
    (zero : ∀ a, g.base ≤ a → a < g.base + n * sizeofMlfsMapBlocks → memory a = 0)
    (ops : List MapOp) (valid : ∀ op ∈ ops, op.Valid n) (b : Nat) (small : b < n) :
    (lblk2pblk (nvm g n fits) (runOps (nvm g n fits) memory ops) b).1 = (lblk2pblk table (runOps table Table.empty ops) b).1 := by
  have bytes := runOps_refines (nvm g n fits) n (fun b small => small) memory 1 ops (nvm_zero g n fits memory zero) valid
  have empty : Refines table n Table.empty 1 := by
    refine ⟨fun _ _ => ⟨?_,?_,?_,?_⟩,fun b _ => ?_,fun _ small => small⟩ <;>
      simp [home,table,Table.empty,mlfsMapUninit]
  have entries := runOps_refines table n (fun _ small => (nvm g n fits).addressable_fits _ small) Table.empty 1 ops empty valid
  rw [lblk2pblk_home,lblk2pblk_home,bytes.homes b small,entries.homes b small]

theorem nvm_translates_as_table_default :
    (lblk2pblk defaultTable (runOps defaultTable (fun _ => 0) [.update 600000 41]) 41).1 =
      (lblk2pblk table (runOps table Table.empty [.update 600000 41]) 41).1 :=
  nvm_translates_as_table _ _ default_fits _ (fun _ _ _ => rfl) _ (by simp [MapOp.Valid]) 41 (by decide)

end Assise.MapTable
