import Assise.MapTable
import Assise.Lib.Copies

-- The copy of the map tables in memory. The writer finds each table's block from the end of the one before it, the
-- reader from the superblock.
namespace Assise.MapTable
open Lib.Memory Lib.Copies Function

structure TablePlaces where
  mapTableStart : Nat
  nmap : Nat
  nmapentry : Nat
  nmapblocks : Nat

def mapTableSize (sb : TablePlaces) : Nat := sizeofMlfsMapBlocks * sb.nmapentry % 2 ^ 64

def tableBSize (sb : TablePlaces) : Nat := mapTableSize sb % 2 ^ 32

def nextWritten (sb : TablePlaces) (curMapStartBlk : Nat) : Nat :=
  (curMapStartBlk * gBlockSizeBytes + mapTableSize sb + gBlockSizeBytes / 2) / gBlockSizeBytes

def nextRead (sb : TablePlaces) (curMapStartBlk : Nat) : Nat := curMapStartBlk + sb.nmapblocks

def writeOne (sb : TablePlaces) (mapTables : Nat → Bytes) (state : Nat × Bytes) (i : Nat) : Option (Nat × Bytes) :=
  if tableBSize sb = 0 then none
  else
    let address := state.1 * gBlockSizeBytes
    some (nextWritten sb state.1,paste state.2 (fun a => mapTables i (a - address)) address (address + tableBSize sb))

def writeMapTable (sb : TablePlaces) (mapTables : Nat → Bytes) (device : Bytes) : Option Bytes :=
  ((List.range sb.nmap).foldlM (writeOne sb mapTables) (sb.mapTableStart,device)).map Prod.snd

def readOne (sb : TablePlaces) (device : Bytes) (state : Nat × (Nat → Bytes)) (i : Nat) : Nat × (Nat → Bytes) :=
  (nextRead sb state.1,update state.2 i
    (paste (state.2 i) (fun x => device (state.1 * gBlockSizeBytes + x)) 0 (tableBSize sb)))

def readMapTable (sb : TablePlaces) (device : Bytes) (mapTables : Nat → Bytes) : Nat → Bytes :=
  ((List.range sb.nmap).foldl (readOne sb device) (sb.mapTableStart,mapTables)).2

def tableEntry (mapTable : Bytes) (j : Nat) : MlfsMapBlocks := readEntry mapTable (sizeofMlfsMapBlocks * j)

def writeBlock (sb : TablePlaces) (i : Nat) : Nat := (nextWritten sb)^[i] sb.mapTableStart

def readBlockNo (sb : TablePlaces) (i : Nat) : Nat := (nextRead sb)^[i] sb.mapTableStart

def blocksOfTable (sb : TablePlaces) : Nat := (mapTableSize sb + gBlockSizeBytes - 1) / gBlockSizeBytes

-- Whatever the tables hold, and whatever the device and the freshly allocated memory held before.
structure RoundTrips (sb : TablePlaces) : Prop where
  entries : ∀ mapTables device fresh, ∃ written, writeMapTable sb mapTables device = some written ∧
    ∀ i, i < sb.nmap → ∀ j, j < sb.nmapentry →
      tableEntry (readMapTable sb written fresh i) j = tableEntry (mapTables i) j
  apart : ∀ i j, i < j → j < sb.nmap → writeBlock sb i + blocksOfTable sb ≤ writeBlock sb j ∧
    readBlockNo sb i + blocksOfTable sb ≤ readBlockNo sb j

def writeStride (sb : TablePlaces) : Nat := (mapTableSize sb + gBlockSizeBytes / 2) / gBlockSizeBytes

theorem nextWritten_eq (sb : TablePlaces) (cur : Nat) : nextWritten sb cur = cur + writeStride sb := by
  have block : gBlockSizeBytes = 4096 := rfl
  unfold nextWritten writeStride
  rw [block]
  omega

theorem writeBlock_eq (sb : TablePlaces) (i : Nat) : writeBlock sb i = sb.mapTableStart + i * writeStride sb := by
  induction i with
  | zero => rw [zero_mul,add_zero]; rfl
  | succ i ih =>
    unfold writeBlock at ih ⊢
    rw [iterate_succ_apply',ih,nextWritten_eq,Nat.succ_mul,add_assoc]

theorem readBlockNo_eq (sb : TablePlaces) (i : Nat) : readBlockNo sb i = sb.mapTableStart + i * sb.nmapblocks := by
  induction i with
  | zero => rw [zero_mul,add_zero]; rfl
  | succ i ih =>
    unfold readBlockNo at ih ⊢
    rw [iterate_succ_apply',ih,nextRead,Nat.succ_mul,add_assoc]

def writtenTables (sb : TablePlaces) (mapTables : Nat → Bytes) (device : Bytes) : Nat → Bytes
  | 0 => device
  | count + 1 =>
    paste (writtenTables sb mapTables device count) (fun a => mapTables count (a - writeBlock sb count * gBlockSizeBytes))
      (writeBlock sb count * gBlockSizeBytes) (writeBlock sb count * gBlockSizeBytes + tableBSize sb)

theorem writeOne_run (sb : TablePlaces) (mapTables : Nat → Bytes) (device : Bytes) (some : tableBSize sb ≠ 0) (count : Nat) :
    (List.range count).foldlM (writeOne sb mapTables) (sb.mapTableStart,device) =
      Option.some (writeBlock sb count,writtenTables sb mapTables device count) := by
  induction count with
  | zero => rfl
  | succ count ih =>
    rw [List.range_succ,List.foldlM_append,ih]
    simp only [List.foldlM_cons,List.foldlM_nil,Option.bind_eq_bind,Option.bind_some,Option.pure_def,Option.bind_fun_some]
    unfold writeOne
    rw [if_neg some]
    unfold writeBlock
    rw [iterate_succ_apply']
    rfl

variable {sb : TablePlaces} {i : Nat}

theorem writeMapTable_eq (mapTables : Nat → Bytes) (device : Bytes) (some : tableBSize sb ≠ 0) :
    writeMapTable sb mapTables device = Option.some (writtenTables sb mapTables device sb.nmap) := by
  unfold writeMapTable
  rw [writeOne_run sb mapTables device some]
  rfl

theorem writeMapTable_empty (mapTables : Nat → Bytes) (device : Bytes) (none : tableBSize sb = 0)
    (tables : sb.nmap ≠ 0) : writeMapTable sb mapTables device = Option.none := by
  obtain ⟨count,more⟩ := Nat.exists_eq_succ_of_ne_zero tables
  unfold writeMapTable
  rw [more,List.range_succ_eq_map,List.foldlM_cons]
  unfold writeOne
  rw [if_pos none]
  rfl

theorem readOne_run (sb : TablePlaces) (device : Bytes) (fresh : Nat → Bytes) (count : Nat) :
    let reached := (List.range count).foldl (readOne sb device) (sb.mapTableStart,fresh)
    reached.1 = readBlockNo sb count ∧
    ∀ i, reached.2 i = if i < count then
      paste (fresh i) (fun x => device (readBlockNo sb i * gBlockSizeBytes + x)) 0 (tableBSize sb) else fresh i := by
  induction count with
  | zero => exact ⟨rfl,fun _ => rfl⟩
  | succ count ih =>
    obtain ⟨block,tables⟩ := ih
    rw [List.range_succ,List.foldl_append,List.foldl_cons,List.foldl_nil]
    generalize List.foldl _ _ (List.range count) = state at block tables ⊢
    unfold readOne
    refine ⟨?_,fun i => ?_⟩
    · dsimp only
      rw [block]
      unfold readBlockNo
      rw [iterate_succ_apply']
    · dsimp only
      by_cases last : i = count
      · subst last
        rw [update_self,if_pos (Nat.lt_succ_self i),tables i,if_neg (lt_irrefl i),block]
      · rw [update_of_ne last,tables i]
        have same : i < count + 1 ↔ i < count := by omega
        rw [if_congr same rfl rfl]

theorem readMapTable_eq (device : Bytes) (fresh : Nat → Bytes) (table : i < sb.nmap) :
    readMapTable sb device fresh i =
      paste (fresh i) (fun x => device (readBlockNo sb i * gBlockSizeBytes + x)) 0 (tableBSize sb) := by
  unfold readMapTable
  rw [(readOne_run sb device fresh sb.nmap).2 i,if_pos table]

theorem readEntry_congr {left right : Bytes} {address : Nat}
    (same : ∀ x, x < sizeofMlfsMapBlocks → left (address + x) = right (address + x)) : readEntry left address = readEntry right address := by
  have size : sizeofMlfsMapBlocks = 24 := rfl
  unfold readEntry
  rw [load_congr left right address 8 fun i small => same i (by omega),
    load_congr left right (address + 8) 4 fun i small => by rw [add_assoc]; exact same _ (by omega),
    load_congr left right (address + 12) 4 fun i small => by rw [add_assoc]; exact same _ (by omega),
    load_congr left right (address + 16) 4 fun i small => by rw [add_assoc]; exact same _ (by omega)]

theorem writtenTables_kept (mapTables : Nat → Bytes) (device : Bytes) {count x : Nat} (table : i < count)
    (apart : ∀ j, i < j → j < count → writeBlock sb i * gBlockSizeBytes + tableBSize sb ≤ writeBlock sb j * gBlockSizeBytes)
    (small : x < tableBSize sb) :
    writtenTables sb mapTables device count (writeBlock sb i * gBlockSizeBytes + x) = mapTables i x := by
  induction count with
  | zero => omega
  | succ count ih =>
    unfold writtenTables
    by_cases last : i = count
    · subst last
      rw [paste_inside (Nat.le_add_right _ _) (Nat.add_lt_add_left small _),Nat.add_sub_cancel_left]
    · have later := apart count (by omega) (Nat.lt_succ_self count)
      rw [paste_outside (.inl (by omega))]
      exact ih (by omega) fun j above below => apart j above (by omega)

-- Tables of a size that b_size can hold, and more than one table only where both strides are the table's blocks.
structure TablesFit (sb : TablePlaces) : Prop where
  some : 0 < sb.nmapentry
  short : sizeofMlfsMapBlocks * sb.nmapentry < 2 ^ 32
  strides : sb.nmap = 1 ∨ (sizeofMlfsMapBlocks * sb.nmapentry ≤ sb.nmapblocks * gBlockSizeBytes ∧
    (sizeofMlfsMapBlocks * sb.nmapentry + gBlockSizeBytes / 2) / gBlockSizeBytes = sb.nmapblocks)

theorem TablesFit.sizes (fit : TablesFit sb) :
    mapTableSize sb = sizeofMlfsMapBlocks * sb.nmapentry ∧ tableBSize sb = sizeofMlfsMapBlocks * sb.nmapentry := by
  have short := fit.short
  have whole : mapTableSize sb = sizeofMlfsMapBlocks * sb.nmapentry := Nat.mod_eq_of_lt (by omega)
  refine ⟨whole,?_⟩
  unfold tableBSize
  rw [whole]
  exact Nat.mod_eq_of_lt short

theorem stride_lt (start stride : Nat) {j : Nat} (later : i < j) : start + i * stride + stride ≤ start + j * stride := by
  have step : (i + 1) * stride ≤ j * stride := Nat.mul_le_mul_right stride later
  rw [Nat.succ_mul] at step
  omega

theorem TablesFit.places (fit : TablesFit sb) :
    (∀ i, i < sb.nmap → readBlockNo sb i = writeBlock sb i) ∧
    (∀ i j, i < j → j < sb.nmap → writeBlock sb i + blocksOfTable sb ≤ writeBlock sb j) := by
  have whole := fit.sizes.1
  rcases fit.strides with one | ⟨room,same⟩
  · refine ⟨fun i table => ?_,fun i j later table => ?_⟩
    · have first : i = 0 := by omega
      rw [first]
      rfl
    · omega
  · have stride : writeStride sb = sb.nmapblocks := by
      unfold writeStride
      rw [whole]
      exact same
    refine ⟨fun i _ => by rw [readBlockNo_eq,writeBlock_eq,stride],fun i j later _ => ?_⟩
    have blocks : blocksOfTable sb ≤ sb.nmapblocks := by
      have block : gBlockSizeBytes = 4096 := rfl
      unfold blocksOfTable
      rw [whole,block]
      rw [block] at room
      omega
    have next := stride_lt sb.mapTableStart sb.nmapblocks later
    rw [writeBlock_eq,writeBlock_eq,stride]
    omega

theorem TablesFit.roundTrips (fit : TablesFit sb) : RoundTrips sb := by
  obtain ⟨whole,size⟩ := fit.sizes
  obtain ⟨blocks,apart⟩ := fit.places
  have entry : sizeofMlfsMapBlocks = 24 := rfl
  have block : gBlockSizeBytes = 4096 := rfl
  have some : tableBSize sb ≠ 0 := by
    have positive := fit.some
    rw [size,entry]
    omega
  refine ⟨fun mapTables device fresh => ⟨_,writeMapTable_eq mapTables device some,fun i table j own => ?_⟩,
    fun i j later table => ⟨apart i j later table,?_⟩⟩
  · refine readEntry_congr fun x small => ?_
    have inside : sizeofMlfsMapBlocks * j + x < tableBSize sb := by
      rw [size]
      rw [entry] at small ⊢
      omega
    rw [readMapTable_eq _ fresh table,paste_inside (Nat.zero_le _) inside,blocks i table]
    refine writtenTables_kept mapTables device table (fun k above below => ?_) inside
    have next := apart i k above below
    unfold blocksOfTable at next
    rw [whole] at next
    rw [size]
    rw [block] at next ⊢
    omega
  · rw [blocks i (by omega),blocks j table]
    exact apart i j later table

def flagged (sb : TablePlaces) (t : Nat) : Nat → Bytes := fun i x =>
  if i = t ∧ x = sizeofMlfsMapBlocks * sb.nmapentry - 8 then 1 else 0

theorem flags_place (some : 0 < sb.nmapentry) :
    sizeofMlfsMapBlocks * (sb.nmapentry - 1) + 16 = sizeofMlfsMapBlocks * sb.nmapentry - 8 := by
  rw [show sizeofMlfsMapBlocks = 24 from rfl]
  omega

theorem flagged_entry (t : Nat) (some : 0 < sb.nmapentry) :
    (tableEntry (flagged sb t t) (sb.nmapentry - 1)).mFlags = 1 := by
  have byte : ∀ k, flagged sb t t (sizeofMlfsMapBlocks * sb.nmapentry - 8 + k) = if k = 0 then 1 else 0 := fun k => by
    unfold flagged
    refine if_congr ⟨fun same => ?_,fun zero => ⟨rfl,by rw [zero]; rfl⟩⟩ rfl rfl
    omega
  show load _ _ 4 = 1
  rw [flags_place some]
  simp only [load,byte]
  rfl

theorem flagged_lost {t : Nat} {read : Bytes} (some : 0 < sb.nmapentry)
    (zero : ∀ k, k < 4 → read (sizeofMlfsMapBlocks * sb.nmapentry - 8 + k) = 0) :
    tableEntry read (sb.nmapentry - 1) ≠ tableEntry (flagged sb t t) (sb.nmapentry - 1) := by
  intro same
  have flags : (tableEntry read (sb.nmapentry - 1)).mFlags = 0 := by
    show load _ _ 4 = 0
    rw [flags_place some]
    exact load_zero _ _ _ zero
  rw [same,flagged_entry t some] at flags
  exact absurd flags (by decide)

theorem flagged_written {t count a : Nat}
    (set : writtenTables sb (flagged sb t) (fun _ => 0) count a ≠ 0) :
    a = writeBlock sb t * gBlockSizeBytes + (sizeofMlfsMapBlocks * sb.nmapentry - 8) := by
  induction count with
  | zero => exact absurd rfl set
  | succ count ih =>
    unfold writtenTables paste at set
    split at set
    · rename_i inside
      unfold flagged at set
      have here := (ite_ne_right_iff.mp set).1
      obtain ⟨rfl,offset⟩ := here
      omega
    · exact ih set

theorem RoundTrips.fit (holds : RoundTrips sb) (tables : sb.nmap ≠ 0) : TablesFit sb := by
  have entry : sizeofMlfsMapBlocks = 24 := rfl
  have block : gBlockSizeBytes = 4096 := rfl
  have size : tableBSize sb = 24 * sb.nmapentry % 2 ^ 64 % 2 ^ 32 := rfl
  have first : 0 < sb.nmap := Nat.pos_of_ne_zero tables
  have nonempty : tableBSize sb ≠ 0 := fun empty => by
    obtain ⟨_,written,_⟩ := holds.entries (fun _ _ => 0) (fun _ => 0) (fun _ _ => 0)
    rw [writeMapTable_empty _ _ empty tables] at written
    cases written
  have some : 0 < sb.nmapentry := by omega
  have last : sb.nmapentry - 1 < sb.nmapentry := by omega
  -- with the flag of one table set and zeros elsewhere, every table has to read back its last entry
  have back : ∀ t, t < sb.nmap → ∀ read, read = readMapTable sb (writtenTables sb (flagged sb t) (fun _ => 0) sb.nmap) (fun _ _ => 0) t →
      ¬ ∀ k, k < 4 → read (sizeofMlfsMapBlocks * sb.nmapentry - 8 + k) = 0 := fun t table read same zero => by
    obtain ⟨written,wrote,entries⟩ := holds.entries (flagged sb t) (fun _ => 0) (fun _ _ => 0)
    rw [writeMapTable_eq _ _ nonempty] at wrote
    injection wrote with wrote
    have kept := entries t table (sb.nmapentry - 1) last
    rw [←wrote,←same] at kept
    exact flagged_lost some zero kept
  have short : sizeofMlfsMapBlocks * sb.nmapentry < 2 ^ 32 := by
    by_contra long
    refine back 0 first _ rfl fun k _ => ?_
    rw [readMapTable_eq _ _ first]
    refine paste_outside (.inr ?_)
    rw [entry] at long ⊢
    omega
  have whole : mapTableSize sb = sizeofMlfsMapBlocks * sb.nmapentry := Nat.mod_eq_of_lt (by omega)
  have full : tableBSize sb = sizeofMlfsMapBlocks * sb.nmapentry := by
    unfold tableBSize
    rw [whole]
    exact Nat.mod_eq_of_lt short
  refine ⟨some,short,?_⟩
  by_cases one : sb.nmap = 1
  · exact .inl one
  · right
    have second : 1 < sb.nmap := by omega
    have stride : writeStride sb = sb.nmapblocks := by
      by_contra differs
      refine back 1 second _ rfl fun k small => ?_
      rw [readMapTable_eq _ _ second,paste_inside (Nat.zero_le _) (by rw [full,entry]; omega)]
      by_contra set
      have position := flagged_written set
      rw [readBlockNo_eq,writeBlock_eq,block,one_mul,one_mul] at position
      omega
    obtain ⟨apart,_⟩ := holds.apart 0 1 Nat.zero_lt_one second
    rw [writeBlock_eq,writeBlock_eq,stride] at apart
    unfold blocksOfTable at apart
    unfold writeStride at stride
    rw [whole,block] at apart stride
    rw [block]
    omega

theorem map_tables_round_trip (sb : TablePlaces) : RoundTrips sb ↔ sb.nmap = 0 ∨ TablesFit sb := by
  refine ⟨fun holds => ?_,fun fit => ?_⟩
  · by_cases none : sb.nmap = 0
    · exact .inl none
    · exact .inr (holds.fit none)
  · rcases fit with none | fit
    · refine ⟨fun mapTables device fresh => ⟨device,?_,fun i table => by omega⟩,fun i j later table => by omega⟩
      unfold writeMapTable
      rw [none]
      rfl
    · exact fit.roundTrips

theorem second_table_overwrites_first :
    let sb : TablePlaces := ⟨781824,2,171,2⟩
    ∃ written, writeMapTable sb (fun i _ => UInt8.ofNat i) (fun _ => 0) = some written ∧
      tableEntry (readMapTable sb written (fun _ _ => 0) 0) 170 ≠ tableEntry (fun _ => 0) 170 ∧
      writeBlock sb 1 < writeBlock sb 0 + blocksOfTable sb := by
  refine ⟨_,writeMapTable_eq _ _ (by decide),?_,by decide⟩
  decide +kernel

end Assise.MapTable
