import Assise.FileRead
import Assise.FileMap
import Assise.MapReads

-- The bytes that a read of a regular file returns: the blocks of the extent tree, and over them the patches still in
-- the log. The read cache, which only the SSD and HDD layers fill, is left out.
namespace Assise.FileRead

open OpenFiles FileWrite Extents FileMap Lib.Memory Lib.Copies Lib.Tiling List Option
open MapTable hiding gBlockSizeBytes

-- struct fcache_log: a range of a file's block, at the same place of a log block.
structure FcacheLog where
  addr : Nat
  offset : Nat
  size : Nat
deriving DecidableEq, Repr

-- A regular file: its extent tree, and for each block the patches that `check_log_invalidation` leaves, newest first.
structure Inode where
  tree : FileMap.File
  logHead : Nat → List FcacheLog

-- A buffer head with its place in the buffer and the flag of `bh_submit_read_sync_IO_loop`.
structure Request where
  bh : BufferHead
  data : Nat
  cacheBitSet : Bool

section Readers
variable {Store : Type} (entries : EntryStore Store) (device : Bytes)

abbrev Buffer := Int → UInt8

def submit (state : Store × Buffer) (r : Request) : Store × Buffer :=
  let (s,filled) := bhSubmitReadSyncIOLoop entries device r.bh r.cacheBitSet state.1 fun x => state.2 (x + r.data)
  (s,fun x => filled (x - r.data))

def submitAll (requests : List Request) (state : Store × Buffer) : Store × Buffer := requests.foldl (submit entries device) state

-- `ret` 0 is the -EIO of the source, and a `ret` below the request its -EAGAIN.
def bmap (f : Inode) (startOffset blkCount : Nat) : Option MapResult :=
  (mlfsExtGetBlocks f.tree.root f.tree.sb (startOffset / gBlockSizeBytes % 2 ^ 32) blkCount false).map Prod.fst

def findIntersection (start₁ size₁ start₂ size₂ : Nat) : Option (Nat × Nat) :=
  if start₁ + size₁ - 1 < start₂ ∨ start₂ + size₂ - 1 < start₁ then none
  else some (max start₁ start₂,min (start₁ + size₁) (start₂ + size₂) - max start₁ start₂)

def cutPatch (offInBlock ioSize dst : Nat) (fcl : FcacheLog) : Option Request :=
  (findIntersection offInBlock ioSize fcl.offset fcl.size).map fun (start,size) =>
    ⟨⟨fcl.addr,size,start⟩,dst + start - offInBlock,true⟩

def patchesInside (logs : List FcacheLog) (offInBlock ioSize dst : Nat) : List Request :=
  logs.reverse.filterMap (cutPatch offInBlock ioSize dst)

def doUnalignedRead (f : Inode) : Reader (Store × Buffer) := fun state off ioSize dst =>
  if ioSize < gBlockSizeBytes then
    let offAligned := off / gBlockSizeBytes * gBlockSizeBytes
    let offInBlock := off - offAligned
    let ioListLog := patchesInside (f.logHead (offAligned / gBlockSizeBytes)) offInBlock ioSize dst
    (bmap f offAligned 1).map fun map =>
      let base : List Request := if map.ret = 0 then [] else [⟨⟨map.mPblk,ioSize,off - offAligned⟩,dst,false⟩]
      submitAll entries device (base ++ ioListLog) state
  else none

-- The first loop of `do_aligned_read`: all patches of the blocks, and the blocks that are looked up in the tree.
def patchesOf (logs : List FcacheLog) (pos : Nat) : List Request :=
  logs.reverse.map fun fcl => ⟨⟨fcl.addr,fcl.size,fcl.offset⟩,pos + fcl.offset,true⟩

def totFclSize (logs : List FcacheLog) : Nat := (logs.map FcacheLog.size).sum

def ioListLog (f : Inode) (off bitmapSize dst : Nat) : List Request :=
  (List.range bitmapSize).flatMap fun i => patchesOf (f.logHead (off / gBlockSizeBytes + i)) (dst + i * gBlockSizeBytes)

def ioBitmap (f : Inode) (off bitmapSize : Nat) : List Bool :=
  (List.range bitmapSize).map fun i => decide (totFclSize (f.logHead (off / gBlockSizeBytes + i)) ≠ gBlockSizeBytes)

def findFirstBit (bits : List Bool) : Nat := bits.findIdx id
def findNextZeroBit (bits : List Bool) (pos : Nat) : Nat := pos + (bits.drop pos).findIdx not
def bitmapClear (bits : List Bool) (pos count : Nat) : List Bool :=
  bits.mapIdx fun i bit => bit && !decide (pos ≤ i ∧ i < pos + count)
def bitmapWeight (bits : List Bool) : Nat := bits.count true

-- `do_global_search`. A round clears at least one bit, so as many rounds as there are bits are enough.
def doGlobalSearch (f : Inode) (off dst : Nat) : Nat → List Bool → Nat → List Request → Option (List Request)
  | 0,_,_,_ => none
  | fuel + 1,bits,ioToBeDone,ioList =>
    let bitmapPos := findFirstBit bits
    let blkCount := findNextZeroBit bits bitmapPos - bitmapPos
    (bmap f (off + bitmapPos * gBlockSizeBytes) blkCount).bind fun map =>
      if map.ret = 0 then some ioList
      else
        let found : Request :=
          ⟨⟨map.mPblk,map.ret * gBlockSizeBytes % 2 ^ 32,0⟩,dst + bitmapPos * gBlockSizeBytes,false⟩
        let left := bitmapClear bits bitmapPos map.ret
        if map.ret ≠ blkCount ∨ bitmapWeight left ≠ 0 then
          doGlobalSearch f off dst fuel left (ioToBeDone + map.ret) (ioList ++ [found])
        else if ioToBeDone + map.ret = bits.length then some (ioList ++ [found]) else none

def doAlignedRead (f : Inode) : Reader (Store × Buffer) := fun state off ioSize dst =>
  if ioSize % gBlockSizeBytes = 0 then
    let bitmapSize := ioSize / gBlockSizeBytes
    let bits := ioBitmap f off bitmapSize
    let ioList := if bitmapWeight bits = 0 then some []
      else doGlobalSearch f off dst bitmapSize bits (bitmapSize - bitmapWeight bits) []
    ioList.map fun ioList => submitAll entries device (ioList ++ ioListLog f off bitmapSize dst) state
  else none

end Readers

section Effect
variable {Store : Type} (entries : EntryStore Store) (device : Bytes)

def Request.covers (r : Request) (x : Int) : Bool := decide ((r.data : Int) ≤ x ∧ x < r.data + r.bh.bSize)

def Request.byteAt (s : Store) (r : Request) (x : Int) : UInt8 :=
  mappedByte entries device r.bh r.cacheBitSet s (x - r.data)

def effect (requests : List Request) (x : Int) : Option Request := requests.reverse.find? (·.covers x)

structure Request.Ok (r : Request) : Prop where
  readable : r.bh.Readable
  own : ∀ i, i * gBlockSizeBytes < r.bh.bSize → entries.Addressable (r.bh.bBlocknr + i)

def SameMaps (s t : Store) : Prop := ∀ cacheBitSet, SameMap entries cacheBitSet s t

theorem effect_append (left right : List Request) (x : Int) :
    effect (left ++ right) x = (effect right x).or (effect left x) := by
  unfold effect
  rw [reverse_append,find?_append]

variable {requests : List Request} {r : Request} {state : Store × Buffer}

theorem effect_none {x : Int} (apart : ∀ r ∈ requests, r.covers x = false) :
    effect requests x = none :=
  find?_eq_none.mpr fun r member => by rw [apart r (mem_reverse.mp member)]; decide

theorem effect_some {x : Int} (found : effect requests x = some r) :
    r ∈ requests ∧ r.covers x = true :=
  ⟨mem_reverse.mp (mem_of_find?_eq_some found),find?_some (p := fun r : Request => r.covers x) found⟩

theorem byteAt_congr {s t : Store} {x : Int} (ok : r.Ok entries) (kept : SameMaps entries s t)
    (low : 0 ≤ x) (high : x < r.bh.bSize) :
    mappedByte entries device r.bh r.cacheBitSet t x = mappedByte entries device r.bh r.cacheBitSet s x := by
  have block : gBlockSizeBytes = 4096 := rfl
  have wide : MapTable.gBlockSizeBytes = 4096 := rfl
  have own := ok.own ((r.bh.bOffset + x.toNat) / MapTable.gBlockSizeBytes) (by
    rcases ok.readable.shape with zero | inside
    · rw [zero,wide,block]
      omega
    · have some := ok.readable.some
      rw [wide] at inside ⊢
      rw [block]
      omega)
  unfold mappedByte
  rw [(kept r.cacheBitSet).same _ own]

variable {s : Store}

theorem submit_byte (ok : r.Ok entries) (kept : SameMaps entries s state.1) :
    SameMaps entries s (submit entries device state r).1 ∧
      ∀ x, (submit entries device state r).2 x = if r.covers x then r.byteAt entries device s x else state.2 x := by
  have filled := loop_filled entries device r.cacheBitSet (fun x => state.2 (x + r.data)) ok.readable (kept true).formed ok.own
  refine ⟨fun flag => loop_keeps entries device r.cacheBitSet _ (kept flag) ok.own,fun x => ?_⟩
  unfold Request.covers
  by_cases inside : (r.data : Int) ≤ x ∧ x < r.data + r.bh.bSize
  · rw [if_pos (decide_eq_true inside)]
    refine (filled.inside (x - r.data) (by omega) (by omega)).trans ?_
    exact byteAt_congr entries device ok kept (by omega) (by omega)
  · rw [if_neg (by simpa using inside)]
    refine (filled.outside (x - r.data) (by omega)).trans ?_
    rw [Int.sub_add_cancel]

theorem submitAll_byte (ok : ∀ r ∈ requests, r.Ok entries)
    (kept : SameMaps entries s state.1) :
    SameMaps entries s (submitAll entries device requests state).1 ∧
      ∀ x, (submitAll entries device requests state).2 x =
        ((effect requests x).map fun r => r.byteAt entries device s x).getD (state.2 x) := by
  induction requests generalizing state with
  | nil => exact ⟨kept,fun _ => rfl⟩
  | cons r rest ih =>
    obtain ⟨later,here⟩ := submit_byte entries device (ok r mem_cons_self) kept
    obtain ⟨last,bytes⟩ := ih (fun q member => ok q (mem_cons_of_mem _ member)) later
    refine ⟨last,fun x => (bytes x).trans ?_⟩
    have split : effect (r :: rest) x = (effect rest x).or (effect [r] x) := effect_append [r] rest x
    rw [split,here x]
    cases effect rest x with
    | some q => rfl
    | none =>
      rw [none_or]
      cases reached : r.covers x <;> simp [effect,reached]

end Effect

section Bytes
variable {Store : Type} (entries : EntryStore Store) (device : Bytes) (f : Inode)

def newest (logs : List FcacheLog) (r : Nat) : Option FcacheLog := logs.find? fun p => decide (p.offset ≤ r ∧ r < p.offset + p.size)

-- The byte of a file at an offset: the newest patch, else the block of the tree, else zero.
def fileByte (s : Store) (a : Nat) : UInt8 :=
  match newest (f.logHead (a / gBlockSizeBytes)) (a % gBlockSizeBytes) with
  | some p => device ((physical entries true s p.addr).1 * gBlockSizeBytes + a % gBlockSizeBytes)
  | none =>
    match f.tree.map (a / gBlockSizeBytes) with
    | some b => device ((physical entries false s b).1 * gBlockSizeBytes + a % gBlockSizeBytes)
    | none => 0

def Patched (a : Nat) : Prop := newest (f.logHead (a / gBlockSizeBytes)) (a % gBlockSizeBytes) ≠ none

structure Inode.Ok : Prop where
  tree : TreeOk f.tree.root
  patches : ∀ k, ∀ p ∈ f.logHead k, 0 < p.size ∧ p.offset + p.size ≤ gBlockSizeBytes ∧ entries.Addressable p.addr
  blocks : ∀ k b, f.tree.map k = some b → entries.Addressable b

theorem patch_ok {addr offset size data : Nat} {flag : Bool} (own : entries.Addressable addr) (some : 0 < size)
    (inside : offset + size ≤ gBlockSizeBytes) : Request.Ok entries ⟨⟨addr,size,offset⟩,data,flag⟩ := by
  have block : gBlockSizeBytes = 4096 := rfl
  rw [block] at inside
  refine ⟨⟨some,by dsimp only; omega,.inr inside⟩,fun i less => ?_⟩
  have first : i = 0 := by
    rw [block] at less
    dsimp only at less
    omega
  rw [first]
  exact own

theorem patch_byte {addr offset size data r : Nat} {flag : Bool} (start : offset ≤ r) (small : r < gBlockSizeBytes) :
    Request.byteAt entries device s ⟨⟨addr,size,offset⟩,data,flag⟩ (data + (r - offset : Nat)) =
      device ((physical entries flag s addr).1 * gBlockSizeBytes + r) := by
  have place : (((data : Int) + ((r - offset : Nat) : Int)) - data).toNat = r - offset := by omega
  have wide : MapTable.gBlockSizeBytes = gBlockSizeBytes := rfl
  unfold Request.byteAt mappedByte
  dsimp only
  rw [place,Nat.add_sub_cancel' start,wide,Nat.div_eq_of_lt small,Nat.mod_eq_of_lt small,add_zero]

theorem patchesOf_effect (logs : List FcacheLog) (pos r : Nat) :
    effect (patchesOf logs pos) ((pos + r : Nat) : Int) =
      (newest logs r).map fun p => ⟨⟨p.addr,p.size,p.offset⟩,pos + p.offset,true⟩ := by
  unfold effect patchesOf newest
  rw [←map_reverse,reverse_reverse,find?_map]
  congr 2
  funext p
  unfold Request.covers
  dsimp only [Function.comp]
  refine decide_eq_decide.mpr ?_
  omega

variable {pos ioSize offInBlock x : Nat} {logs : List FcacheLog} {p : FcacheLog} {state : Store × Buffer}

theorem patchesOf_apart {x : Int} (inside : ∀ p ∈ logs, p.offset + p.size ≤ gBlockSizeBytes)
    (apart : x < pos ∨ (pos + gBlockSizeBytes : Nat) ≤ x) : ∀ r ∈ patchesOf logs pos, r.covers x = false := by
  intro r member
  obtain ⟨p,listed,rfl⟩ := mem_map.mp member
  have fits := inside p (mem_reverse.mp listed)
  refine decide_eq_false ?_
  dsimp only
  omega

variable {loaded : Nat → Prop} {off dst : Nat}

theorem cutPatch_some {q : Request} (cut : cutPatch offInBlock ioSize dst p = some q) :
    ∃ start size, q = ⟨⟨p.addr,size,start⟩,dst + start - offInBlock,true⟩ ∧ start = max offInBlock p.offset ∧
      size = min (offInBlock + ioSize) (p.offset + p.size) - start ∧ p.offset ≤ offInBlock + ioSize - 1 ∧
      offInBlock ≤ p.offset + p.size - 1 := by
  obtain ⟨⟨start,size⟩,found,rfl⟩ := map_eq_some_iff.mp cut
  unfold findIntersection at found
  split at found
  · cases found
  · cases found
    exact ⟨_,_,rfl,rfl,rfl,by omega,by omega⟩

theorem cutPatch_reaches (offInBlock dst : Nat) (less : x < ioSize) (p : FcacheLog) :
    (cutPatch offInBlock ioSize dst p).any (·.covers ((dst + x : Nat) : Int)) =
      decide (p.offset ≤ offInBlock + x ∧ offInBlock + x < p.offset + p.size) := by
  unfold cutPatch findIntersection
  split
  · refine (decide_eq_false ?_).symm
    omega
  · refine decide_eq_decide.mpr ?_
    dsimp only
    omega

theorem patchesInside_effect (logs : List FcacheLog) (less : x < ioSize) :
    effect (patchesInside logs offInBlock ioSize dst) ((dst + x : Nat) : Int) =
      (newest logs (offInBlock + x)).bind (cutPatch offInBlock ioSize dst) := by
  unfold effect patchesInside newest
  rw [←filterMap_reverse,reverse_reverse,find?_filterMap]
  congr 2
  funext p
  exact cutPatch_reaches offInBlock dst less p

theorem newest_some {r : Nat} (found : newest logs r = some p) :
    p ∈ logs ∧ p.offset ≤ r ∧ r < p.offset + p.size :=
  ⟨mem_of_find?_eq_some found,
    of_decide_eq_true (find?_some (p := fun p : FcacheLog => decide (p.offset ≤ r ∧ r < p.offset + p.size)) found)⟩

theorem fileByte_patched {a : Nat}
    (found : newest (f.logHead (a / gBlockSizeBytes)) (a % gBlockSizeBytes) = some p) :
    fileByte entries device f s a = device ((physical entries true s p.addr).1 * gBlockSizeBytes + a % gBlockSizeBytes) := by
  unfold fileByte
  rw [found]

theorem fileByte_mapped {a b : Nat}
    (bare : newest (f.logHead (a / gBlockSizeBytes)) (a % gBlockSizeBytes) = none) (mapped : f.tree.map (a / gBlockSizeBytes) = some b) :
    fileByte entries device f s a = device ((physical entries false s b).1 * gBlockSizeBytes + a % gBlockSizeBytes) := by
  unfold fileByte
  rw [bare,mapped]

structure PieceRead (loaded : Nat → Prop) (s : Store) (off ioSize dst : Nat) (state state' : Store × Buffer) : Prop where
  same : SameMaps entries s state'.1
  filled : ∀ x, x < ioSize → Patched f (off + x) ∨ loaded ((off + x) / gBlockSizeBytes) →
    state'.2 ((dst + x : Nat) : Int) = fileByte entries device f s (off + x)
  missed : ∀ x, x < ioSize → ¬ Patched f (off + x) → ¬ loaded ((off + x) / gBlockSizeBytes) →
    state'.2 ((dst + x : Nat) : Int) = state.2 ((dst + x : Nat) : Int)
  outside : ∀ y : Int, y < dst ∨ (dst + ioSize : Nat) ≤ y → state'.2 y = state.2 y

theorem pieceRead_of_effects
    {base logs : List Request} (kept : SameMaps entries s state.1) (baseOk : ∀ r ∈ base, r.Ok entries) (logsOk : ∀ r ∈ logs, r.Ok entries)
    (patched : ∀ x, x < ioSize → ∀ p, newest (f.logHead ((off + x) / gBlockSizeBytes)) ((off + x) % gBlockSizeBytes) = some p →
      ∃ r, effect logs ((dst + x : Nat) : Int) = some r ∧
        r.byteAt entries device s ((dst + x : Nat) : Int) =
          device ((physical entries true s p.addr).1 * gBlockSizeBytes + (off + x) % gBlockSizeBytes))
    (bare : ∀ x, x < ioSize → ¬ Patched f (off + x) → effect logs ((dst + x : Nat) : Int) = none)
    (hit : ∀ x, x < ioSize → loaded ((off + x) / gBlockSizeBytes) → ∃ b r, f.tree.map ((off + x) / gBlockSizeBytes) = some b ∧
      effect base ((dst + x : Nat) : Int) = some r ∧ r.byteAt entries device s ((dst + x : Nat) : Int) =
        device ((physical entries false s b).1 * gBlockSizeBytes + (off + x) % gBlockSizeBytes))
    (miss : ∀ x, x < ioSize → ¬ loaded ((off + x) / gBlockSizeBytes) → effect base ((dst + x : Nat) : Int) = none)
    (apart : ∀ y : Int, y < dst ∨ (dst + ioSize : Nat) ≤ y → ∀ r ∈ base ++ logs, r.covers y = false) :
    PieceRead entries device f loaded s off ioSize dst state (submitAll entries device (base ++ logs) state) := by
  obtain ⟨same,bytes⟩ := submitAll_byte entries device
    (fun r member => (mem_append.mp member).elim (baseOk r) (logsOk r)) kept
  refine ⟨same,fun x less either => ?_,fun x less unpatched unloaded => ?_,fun y out => ?_⟩
  · rw [bytes,effect_append]
    cases found : newest (f.logHead ((off + x) / gBlockSizeBytes)) ((off + x) % gBlockSizeBytes) with
    | some p =>
      obtain ⟨r,here,byte⟩ := patched x less p found
      rw [here,fileByte_patched entries device f found]
      exact byte
    | none =>
      have unpatched : ¬ Patched f (off + x) := fun some => some found
      obtain ⟨b,r,mapped,here,byte⟩ := hit x less (either.resolve_left unpatched)
      rw [bare x less unpatched,here,fileByte_mapped entries device f found mapped]
      exact byte
  · rw [bytes,effect_append,bare x less unpatched,miss x less unloaded]
    rfl
  · rw [bytes,effect_none (apart y out)]
    rfl

theorem bmap_spec {f : Inode} {entries : EntryStore Store} (ok : f.Ok entries) (startOffset : Nat) {blkCount : Nat} (asked : 0 < blkCount)
    (range : startOffset / gBlockSizeBytes < extMaxBlocks) :
    ∃ map, bmap f startOffset blkCount = some map ∧
      (f.tree.map (startOffset / gBlockSizeBytes) ≠ none → Hit f.tree.map (startOffset / gBlockSizeBytes) blkCount map) ∧
      (f.tree.map (startOffset / gBlockSizeBytes) = none → map.ret = 0) := by
  have whole : startOffset / gBlockSizeBytes % 2 ^ 32 = startOffset / gBlockSizeBytes := Nat.mod_eq_of_lt (range.trans (by decide))
  obtain ⟨map,found,hit,miss⟩ := lookup_tree ok.tree asked range
  refine ⟨map,?_,hit,miss⟩
  unfold bmap
  rw [whole,found]
  rfl

theorem inside_block (less : x < ioSize) (inside : off % gBlockSizeBytes + ioSize ≤ gBlockSizeBytes) :
    (off + x) / gBlockSizeBytes = off / gBlockSizeBytes ∧ (off + x) % gBlockSizeBytes = off % gBlockSizeBytes + x := by
  have block : gBlockSizeBytes = 4096 := rfl
  rw [block] at inside ⊢
  omega

theorem patchesInside_patched (less : x < ioSize)
    (inside : offInBlock + ioSize ≤ gBlockSizeBytes) (found : newest logs (offInBlock + x) = some p) :
    ∃ r, effect (patchesInside logs offInBlock ioSize dst) ((dst + x : Nat) : Int) = some r ∧
      r.byteAt entries device s ((dst + x : Nat) : Int) =
        device ((physical entries true s p.addr).1 * gBlockSizeBytes + (offInBlock + x)) := by
  obtain ⟨_,low,high⟩ := newest_some found
  have reaches := cutPatch_reaches offInBlock dst less p
  rw [decide_eq_true ⟨low,high⟩] at reaches
  obtain ⟨r,cut,_⟩ := (any_eq_true _ _).mp reaches
  refine ⟨r,?_,?_⟩
  · rw [patchesInside_effect logs less,found]
    exact cut
  · obtain ⟨start,size,rfl,place,_,_,_⟩ := cutPatch_some cut
    have position : ((dst + x : Nat) : Int) = ((dst + start - offInBlock : Nat) : Int) + ((offInBlock + x - start : Nat) : Int) := by
      omega
    rw [position]
    exact patch_byte entries device (by omega) (by omega)

theorem patchesInside_ok (dst : Nat) (some : 0 < ioSize)
    (inside : offInBlock + ioSize ≤ gBlockSizeBytes)
    (patches : ∀ p ∈ logs, 0 < p.size ∧ p.offset + p.size ≤ gBlockSizeBytes ∧ entries.Addressable p.addr) :
    ∀ r ∈ patchesInside logs offInBlock ioSize dst, r.Ok entries ∧
      ∀ y : Int, y < dst ∨ (dst + ioSize : Nat) ≤ y → r.covers y = false := by
  intro r member
  obtain ⟨p,listed,cut⟩ := mem_filterMap.mp member
  obtain ⟨positive,fits,own⟩ := patches p (mem_reverse.mp listed)
  obtain ⟨start,size,rfl,place,length,low,high⟩ := cutPatch_some cut
  refine ⟨patch_ok entries own (by omega) (by omega),fun y out => decide_eq_false ?_⟩
  dsimp only
  omega

theorem doUnalignedRead_piece {f : Inode} (ok : f.Ok entries) (kept : SameMaps entries s state.1)
    (dst : Nat) (some : 0 < ioSize) (short : ioSize < gBlockSizeBytes)
    (inside : off % gBlockSizeBytes + ioSize ≤ gBlockSizeBytes) (range : off / gBlockSizeBytes < extMaxBlocks) :
    ∃ state', doUnalignedRead entries device f state off ioSize dst = Option.some state' ∧
      PieceRead entries device f (fun k => f.tree.map k ≠ none) s off ioSize dst state state' := by
  have whole : 0 < gBlockSizeBytes := by decide
  have key : off / gBlockSizeBytes * gBlockSizeBytes / gBlockSizeBytes = off / gBlockSizeBytes := Nat.mul_div_cancel _ whole
  have rest : off - off / gBlockSizeBytes * gBlockSizeBytes = off % gBlockSizeBytes := by
    have parts := Nat.div_add_mod' off gBlockSizeBytes
    omega
  obtain ⟨map,found,hit,miss⟩ := bmap_spec ok (off / gBlockSizeBytes * gBlockSizeBytes) Nat.zero_lt_one (by rw [key]; exact range)
  rw [key] at hit miss
  have logs := patchesInside_ok entries dst some inside (ok.patches (off / gBlockSizeBytes))
  generalize hbase : (if map.ret = 0 then [] else [⟨⟨map.mPblk,ioSize,off % gBlockSizeBytes⟩,dst,false⟩] : List Request) = base
  have done : doUnalignedRead entries device f state off ioSize dst = Option.some (submitAll entries device
      (base ++ patchesInside (f.logHead (off / gBlockSizeBytes)) (off % gBlockSizeBytes) ioSize dst) state) := by
    unfold doUnalignedRead
    rw [if_pos short]
    dsimp only
    rw [key,rest,found,map_some,hbase]
  -- the base is one request if the block is mapped, and none otherwise
  have baseOf : ∀ r ∈ base, ∃ b, f.tree.map (off / gBlockSizeBytes) = Option.some b ∧
      r = ⟨⟨b,ioSize,off % gBlockSizeBytes⟩,dst,false⟩ := fun r member => by
    have mapped : f.tree.map (off / gBlockSizeBytes) ≠ none := fun unmapped => by
      rw [if_pos (miss unmapped)] at hbase
      rw [←hbase] at member
      cases member
    have reply := hit mapped
    have positive := reply.positive
    rw [if_neg (by omega)] at hbase
    rw [←hbase] at member
    exact ⟨_,reply.agrees 0 positive,mem_singleton.mp member⟩
  refine ⟨_,done,pieceRead_of_effects entries device f kept (fun r member => ?_) (fun r member => (logs r member).1) ?_ ?_ ?_ ?_ ?_⟩
  · obtain ⟨b,mapped,rfl⟩ := baseOf r member
    exact patch_ok entries (ok.blocks _ b mapped) some inside
  · intro x less p newestOne
    obtain ⟨block,place⟩ := inside_block less inside
    rw [block,place] at newestOne
    rw [place]
    exact patchesInside_patched entries device less inside newestOne
  · intro x less unpatched
    obtain ⟨block,place⟩ := inside_block less inside
    have none := Classical.not_not.mp unpatched
    rw [block,place] at none
    rw [patchesInside_effect _ less,none]
    rfl
  · intro x less mapped
    obtain ⟨block,place⟩ := inside_block less inside
    rw [block] at mapped ⊢
    have reply := hit mapped
    have positive := reply.positive
    rw [if_neg (by omega)] at hbase
    refine ⟨map.mPblk,⟨⟨map.mPblk,ioSize,off % gBlockSizeBytes⟩,dst,false⟩,reply.agrees 0 positive,?_,?_⟩
    · rw [←hbase]
      unfold effect Request.covers
      simp [less]
    · rw [place]
      have position : ((dst + x : Nat) : Int) = (dst : Int) + ((off % gBlockSizeBytes + x - off % gBlockSizeBytes : Nat) : Int) := by
        omega
      rw [position]
      exact patch_byte entries device (by omega) (by omega)
  · intro x less unmapped
    obtain ⟨block,_⟩ := inside_block less inside
    rw [block] at unmapped
    refine effect_none fun r member => ?_
    obtain ⟨b,mapped,_⟩ := baseOf r member
    exact absurd (by rw [mapped]; simp) unmapped
  · intro y out r member
    rcases mem_append.mp member with early | late
    · obtain ⟨b,_,rfl⟩ := baseOf r early
      refine decide_eq_false ?_
      dsimp only
      omega
    · exact (logs r late).2 y out

end Bytes

section Bits

def masked (bit : Nat → Bool) (m c : Nat) : List Bool := (List.range m).map fun i => decide (c ≤ i) && bit i

variable {bit : Nat → Bool} {m c : Nat}

theorem masked_length : (masked bit m c).length = m := by
  unfold masked
  rw [length_map,length_range]

variable {i pos count : Nat}

theorem masked_get (small : i < (masked bit m c).length) : (masked bit m c)[i] = (decide (c ≤ i) && bit i) := by
  simp [masked]

theorem ioBitmap_masked (f : Inode) (off m : Nat) :
    ioBitmap f off m = masked (fun i => decide (totFclSize (f.logHead (off / gBlockSizeBytes + i)) ≠ gBlockSizeBytes)) m 0 := by
  unfold ioBitmap masked
  simp

theorem firstBit_spec (some : bitmapWeight (masked bit m c) ≠ 0) :
    let pos := findFirstBit (masked bit m c)
    pos < m ∧ c ≤ pos ∧ bit pos = true ∧ ∀ i, c ≤ i → i < pos → bit i = false := by
  intro pos
  have member : true ∈ masked bit m c := count_pos_iff.mp (Nat.pos_of_ne_zero some)
  have bound : pos < (masked bit m c).length := findIdx_lt_length_of_exists ⟨true,member,rfl⟩
  have set : id (masked bit m c)[pos] = true := findIdx_getElem
  rw [id,masked_get bound,Bool.and_eq_true,decide_eq_true_eq] at set
  refine ⟨by rwa [masked_length] at bound,set.1,set.2,fun i low early => ?_⟩
  have clear := not_of_lt_findIdx early
  rw [masked_get] at clear
  simpa [low] using clear

theorem nextZero_spec (small : pos < m) (low : c ≤ pos) (set : bit pos = true) :
    let count := findNextZeroBit (masked bit m c) pos - pos
    0 < count ∧ pos + count ≤ m ∧ ∀ i, pos ≤ i → i < pos + count → bit i = true := by
  intro count
  have same : count = ((masked bit m c).drop pos).findIdx not := Nat.add_sub_cancel_left ..
  have length : ((masked bit m c).drop pos).length = m - pos := by rw [length_drop,masked_length]
  have within : count ≤ m - pos := by
    rw [same,←length]
    exact findIdx_le_length
  have ones : ∀ i, i < count → bit (pos + i) = true := fun i less => by
    rw [same] at less
    have one := not_of_lt_findIdx less
    rw [getElem_drop,masked_get] at one
    have both : c ≤ pos + i ∧ bit (pos + i) = true := by simpa using one
    exact both.2
  have positive : 0 < count := by
    rw [same,drop_eq_getElem_cons (by rw [masked_length]; exact small),findIdx_cons,masked_get,set,decide_eq_true low]
    exact Nat.succ_pos _
  refine ⟨positive,by omega,fun i from_ below => ?_⟩
  have here := ones (i - pos) (by omega)
  rwa [Nat.add_sub_cancel' from_] at here

theorem bitmapClear_masked (count : Nat) (low : c ≤ pos) (clear : ∀ i, c ≤ i → i < pos → bit i = false) :
    bitmapClear (masked bit m c) pos count = masked bit m (pos + count) := by
  unfold bitmapClear
  refine ext_getElem ?_ fun i left right => ?_
  · rw [length_mapIdx,masked_length,masked_length]
  · rw [getElem_mapIdx,masked_get,masked_get]
    by_cases early : i < pos
    · have none : (decide (c ≤ i) && bit i) = false := by
        by_cases from_ : c ≤ i
        · rw [clear i from_ early,Bool.and_false]
        · rw [decide_eq_false from_,Bool.false_and]
      rw [none,Bool.false_and,decide_eq_false (by omega),Bool.false_and]
    · by_cases inside : i < pos + count
      · rw [decide_eq_true (by omega : pos ≤ i ∧ i < pos + count),decide_eq_false (by omega : ¬ pos + count ≤ i)]
        simp
      · rw [decide_eq_false (by omega : ¬ (pos ≤ i ∧ i < pos + count)),decide_eq_true (by omega : pos + count ≤ i),
          decide_eq_true (by omega : c ≤ i)]
        simp

theorem masked_skip (low : c ≤ pos) (clear : ∀ i, c ≤ i → i < pos → bit i = false) :
    masked bit m c = masked bit m pos := by
  have cleared := bitmapClear_masked (m := m) 0 low clear
  rw [add_zero] at cleared
  rw [←cleared]
  refine ext_getElem ?_ fun i left right => ?_
  · simp [bitmapClear]
  · simp only [bitmapClear,getElem_mapIdx,add_zero,decide_eq_false (by omega : ¬ (pos ≤ i ∧ i < pos)),Bool.not_false,Bool.and_true]

theorem weight_behind (behind : m ≤ c) : bitmapWeight (masked bit m c) = 0 := by
  refine count_eq_zero.mpr fun member => ?_
  obtain ⟨i,inside,set⟩ := mem_map.mp member
  have early := mem_range.mp inside
  rw [decide_eq_false (by omega),Bool.false_and] at set
  cases set

theorem weight_succ (m c : Nat) :
    bitmapWeight (masked bit (m + 1) c) = bitmapWeight (masked bit m c) + if c ≤ m ∧ bit m = true then 1 else 0 := by
  unfold bitmapWeight masked
  rw [range_succ,map_append,count_append]
  by_cases here : c ≤ m ∧ bit m = true
  · simp [here]
  · rw [if_neg here]
    simp [here]

theorem weight_step (set : bit c = true) (small : c < m) :
    bitmapWeight (masked bit m c) = 1 + bitmapWeight (masked bit m (c + 1)) := by
  induction m with
  | zero => omega
  | succ m ih =>
    rw [weight_succ,weight_succ]
    by_cases last : c = m
    · subst last
      rw [weight_behind (le_refl c),weight_behind (Nat.le_succ c),if_pos ⟨le_refl c,set⟩,if_neg (by omega)]
    · have same : (c ≤ m ∧ bit m = true) ↔ (c + 1 ≤ m ∧ bit m = true) := and_congr_left' (by omega)
      rw [ih (by omega),if_congr same rfl rfl,add_assoc]

theorem masked_weight (low : c ≤ pos) (clear : ∀ i, c ≤ i → i < pos → bit i = false) (small : pos + count ≤ m)
    (ones : ∀ i, pos ≤ i → i < pos + count → bit i = true) :
    bitmapWeight (masked bit m c) = count + bitmapWeight (masked bit m (pos + count)) := by
  rw [masked_skip low clear]
  induction count with
  | zero => rw [zero_add,add_zero]
  | succ count ih =>
    rw [ih (by omega) fun i from_ below => ones i from_ (by omega),
      weight_step (ones (pos + count) (by omega) (by omega)) (by omega),←add_assoc,←add_assoc]

theorem weight_zero (none : bitmapWeight (masked bit m c) = 0) (low : c ≤ i) (small : i < m) : bit i = false := by
  by_contra set
  refine count_eq_zero.mp none (mem_map.mpr ⟨i,mem_range.mpr small,?_⟩)
  rw [decide_eq_true low,Bool.true_and]
  exact Bool.eq_true_of_not_eq_false set

end Bits

section Search
variable {Store : Type} {entries : EntryStore Store} {f : Inode} {off dst m : Nat} {bit : Nat → Bool}

structure Run (f : Inode) (off m first count p : Nat) : Prop where
  positive : 0 < count
  within : first + count ≤ m
  agrees : ∀ i, i < count → f.tree.map (off / gBlockSizeBytes + first + i) = some (p + i)

def runRequest (dst first count p : Nat) : Request := ⟨⟨p,count * gBlockSizeBytes,0⟩,dst + first * gBlockSizeBytes,false⟩

theorem runRequest_covers (dst first count p x : Nat) :
    (runRequest dst first count p).covers ((dst + x : Nat) : Int) = true ↔
      first ≤ x / gBlockSizeBytes ∧ x / gBlockSizeBytes < first + count := by
  have block : gBlockSizeBytes = 4096 := rfl
  unfold runRequest Request.covers
  rw [decide_eq_true_eq,block]
  dsimp only
  omega

structure Loaded (f : Inode) (off dst m : Nat) (bit : Nat → Bool) (c : Nat) (ioList : List Request) : Prop where
  runs : ∀ r ∈ ioList, ∃ first count p, Run f off m first count p ∧ r = runRequest dst first count p
  exact : ∀ x, x < m * gBlockSizeBytes → ((∃ r ∈ ioList, r.covers ((dst + x : Nat) : Int) = true) ↔
    x / gBlockSizeBytes < c ∧ bit (x / gBlockSizeBytes) = true)

variable {pos count x first i : Nat} {ioList : List Request}

theorem Loaded.skip {c : Nat} (loaded : Loaded f off dst m bit c ioList) (low : c ≤ pos)
    (clear : ∀ i, c ≤ i → i < pos → bit i = false) : Loaded f off dst m bit pos ioList := by
  refine ⟨loaded.runs,fun x small => (loaded.exact x small).trans ⟨fun here => ⟨by omega,here.2⟩,fun here => ⟨?_,here.2⟩⟩⟩
  by_contra late
  rw [clear _ (by omega) here.1] at here
  exact absurd here.2 (by decide)

theorem Loaded.add {p : Nat} (loaded : Loaded f off dst m bit pos ioList)
    (run : Run f off m pos count p) (ones : ∀ i, pos ≤ i → i < pos + count → bit i = true) :
    Loaded f off dst m bit (pos + count) (ioList ++ [runRequest dst pos count p]) := by
  refine ⟨fun r member => ?_,fun x small => ?_⟩
  · rcases mem_append.mp member with early | late
    · exact loaded.runs r early
    · cases mem_singleton.mp late
      exact ⟨pos,count,p,run,rfl⟩
  · have split : (∃ r ∈ ioList ++ [runRequest dst pos count p], r.covers ((dst + x : Nat) : Int) = true) ↔
        (x / gBlockSizeBytes < pos ∧ bit (x / gBlockSizeBytes) = true) ∨
          (pos ≤ x / gBlockSizeBytes ∧ x / gBlockSizeBytes < pos + count) := by
      rw [←loaded.exact x small,←runRequest_covers dst pos count p x]
      simp [or_and_right,exists_or]
    rw [split]
    constructor
    · rintro (early | ⟨low,high⟩)
      · exact ⟨by omega,early.2⟩
      · exact ⟨high,ones _ low high⟩
    · rintro ⟨high,set⟩
      by_cases early : x / gBlockSizeBytes < pos
      · exact .inl ⟨early,set⟩
      · exact .inr ⟨by omega,high⟩

def Ends (f : Inode) (off m : Nat) (bit : Nat → Bool) (c : Nat) : Prop :=
  (∀ i, c ≤ i → i < m → bit i = false) ∨ (c < m ∧ bit c = true ∧ f.tree.map (off / gBlockSizeBytes + c) = none)

theorem doGlobalSearch_spec (ok : f.Ok entries) (range : off / gBlockSizeBytes + m ≤ extMaxBlocks) (size : m * gBlockSizeBytes < 2 ^ 31) {fuel c done : Nat}
    (loaded : Loaded f off dst m bit c ioList) (some : bitmapWeight (masked bit m c) ≠ 0)
    (enough : bitmapWeight (masked bit m c) ≤ fuel) (counted : done + bitmapWeight (masked bit m c) = m) :
    ∃ list c', doGlobalSearch f off dst fuel (masked bit m c) done ioList = Option.some list ∧
      Loaded f off dst m bit c' list ∧ Ends f off m bit c' := by
  induction fuel generalizing c done ioList with
  | zero => exact absurd (Nat.le_zero.mp enough) some
  | succ fuel ih =>
    obtain ⟨small,low,set,clear⟩ := firstBit_spec some
    generalize hpos : findFirstBit (masked bit m c) = pos at small low set clear
    obtain ⟨asked,within,ones⟩ := nextZero_spec small low set
    generalize hcount : findNextZeroBit (masked bit m c) pos - pos = blkCount at asked within ones
    have block : gBlockSizeBytes = 4096 := rfl
    have key : (off + pos * gBlockSizeBytes) / gBlockSizeBytes = off / gBlockSizeBytes + pos := by
      rw [block]
      omega
    obtain ⟨map,found,hit,miss⟩ := bmap_spec ok (off + pos * gBlockSizeBytes) asked (by rw [key]; omega)
    rw [key] at hit miss
    have here := loaded.skip low clear
    unfold doGlobalSearch
    dsimp only
    rw [hpos,hcount,found,bind_some]
    by_cases unmapped : f.tree.map (off / gBlockSizeBytes + pos) = none
    · rw [if_pos (miss unmapped)]
      exact ⟨ioList,pos,rfl,here,.inr ⟨small,set,unmapped⟩⟩
    · obtain ⟨positive,most,agrees⟩ := hit unmapped
      have runOnes : ∀ i, pos ≤ i → i < pos + map.ret → bit i = true := fun i from_ below => ones i from_ (by omega)
      have weight := masked_weight low clear (show pos + map.ret ≤ m by omega) runOnes
      have short : map.ret * gBlockSizeBytes % 2 ^ 32 = map.ret * gBlockSizeBytes := by
        rw [block] at size ⊢
        omega
      have next : Loaded f off dst m bit (pos + map.ret) (ioList ++ [runRequest dst pos map.ret map.mPblk]) :=
        here.add ⟨positive,by omega,agrees⟩ runOnes
      rw [if_neg (by omega),bitmapClear_masked map.ret low clear,short]
      by_cases more : map.ret ≠ blkCount ∨ bitmapWeight (masked bit m (pos + map.ret)) ≠ 0
      · rw [if_pos more]
        have left : bitmapWeight (masked bit m (pos + map.ret)) ≠ 0 := by
          rcases more with part | left
          · rw [weight_step (ones (pos + map.ret) (by omega) (by omega)) (by omega)]
            omega
          · exact left
        exact ih next left (by omega) (by omega)
      · rw [if_neg more,masked_length,if_pos (by omega)]
        exact ⟨_,_,rfl,next,.inl fun i low small => weight_zero (by omega) low small⟩

def Searched (f : Inode) (k : Nat) : Prop := totFclSize (f.logHead k) ≠ gBlockSizeBytes

instance (f : Inode) (k : Nat) : Decidable (Searched f k) := inferInstanceAs (Decidable (_ ≠ _))

def Reached (f : Inode) (off k : Nat) : Prop :=
  Searched f k ∧ ∀ j, off / gBlockSizeBytes ≤ j → j ≤ k → Searched f j → f.tree.map j ≠ none

theorem Loaded.run {c : Nat} (loaded : Loaded f off dst m bit c ioList)
    (small : x < m * gBlockSizeBytes) (early : x / gBlockSizeBytes < c) (set : bit (x / gBlockSizeBytes) = true) :
    ∃ r first count p, effect ioList ((dst + x : Nat) : Int) = some r ∧ Run f off m first count p ∧
      r = runRequest dst first count p ∧ first ≤ x / gBlockSizeBytes ∧ x / gBlockSizeBytes < first + count := by
  have some : (effect ioList ((dst + x : Nat) : Int)).isSome = true := by
    obtain ⟨r,member,covers⟩ := (loaded.exact x small).mpr ⟨early,set⟩
    exact find?_isSome.mpr ⟨r,mem_reverse.mpr member,covers⟩
  obtain ⟨r,found⟩ := isSome_iff_exists.mp some
  obtain ⟨member,covers⟩ := effect_some found
  obtain ⟨first,count,p,run,rfl⟩ := loaded.runs r member
  exact ⟨_,first,count,p,found,run,rfl,(runRequest_covers dst first count p x).mp covers⟩

theorem Run.block {p : Nat} (run : Run f off m first count p) (low : first ≤ i) (high : i < first + count) :
    f.tree.map (off / gBlockSizeBytes + i) = some (p + (i - first)) := by
  have here := run.agrees (i - first) (by omega)
  rwa [add_assoc,Nat.add_sub_cancel' low] at here

theorem runRequest_byte {device : Bytes} {p : Nat} (low : first ≤ x / gBlockSizeBytes) :
    (runRequest dst first count p).byteAt entries device s ((dst + x : Nat) : Int) =
      device ((physical entries false s (p + (x / gBlockSizeBytes - first))).1 * gBlockSizeBytes + x % gBlockSizeBytes) := by
  have block : gBlockSizeBytes = 4096 := rfl
  have wide : MapTable.gBlockSizeBytes = gBlockSizeBytes := rfl
  have place : (((dst + x : Nat) : Int) - ((dst + first * gBlockSizeBytes : Nat) : Int)).toNat = x - first * gBlockSizeBytes := by
    rw [block] at low ⊢
    omega
  have parts : (x - first * gBlockSizeBytes) / gBlockSizeBytes = x / gBlockSizeBytes - first ∧
      (x - first * gBlockSizeBytes) % gBlockSizeBytes = x % gBlockSizeBytes := by
    rw [block] at low ⊢
    omega
  unfold runRequest Request.byteAt mappedByte
  dsimp only
  rw [place,wide,zero_add,parts.1,parts.2]

theorem runRequest_ok {p : Nat} (ok : f.Ok entries) (run : Run f off m first count p) (size : m * gBlockSizeBytes < 2 ^ 31) :
    (runRequest dst first count p).Ok entries := by
  have block : gBlockSizeBytes = 4096 := rfl
  have positive := run.positive
  have within := run.within
  unfold runRequest
  refine ⟨⟨?_,?_,.inl rfl⟩,fun i less => ?_⟩
  · dsimp only
    rw [block]
    omega
  · dsimp only
    rw [block] at size ⊢
    omega
  · dsimp only at less ⊢
    exact ok.blocks _ _ (run.agrees i (Nat.lt_of_mul_lt_mul_right less))

theorem Loaded.reached {c : Nat} {ioList : List Request}
    (loaded : Loaded f off dst m (fun i => decide (Searched f (off / gBlockSizeBytes + i))) c ioList)
    (ends : Ends f off m (fun i => decide (Searched f (off / gBlockSizeBytes + i))) c) (small : i < m) :
    Reached f off (off / gBlockSizeBytes + i) ↔ i < c ∧ Searched f (off / gBlockSizeBytes + i) := by
  have block : gBlockSizeBytes = 4096 := rfl
  have mapped : ∀ j, j < m → j < c → Searched f (off / gBlockSizeBytes + j) → f.tree.map (off / gBlockSizeBytes + j) ≠ none := by
    intro j less early searched
    have place : j * gBlockSizeBytes / gBlockSizeBytes = j := Nat.mul_div_cancel j (by decide)
    obtain ⟨r,first,count,p,_,run,_,low,high⟩ := loaded.run (x := j * gBlockSizeBytes)
      (Nat.mul_lt_mul_of_pos_right less (by decide)) (by rwa [place]) (by rw [place]; exact decide_eq_true searched)
    rw [place] at low high
    rw [run.block low high]
    simp
  constructor
  · rintro ⟨searched,before⟩
    refine ⟨?_,searched⟩
    by_contra late
    rcases ends with clear | ⟨_,set,hole⟩
    · exact absurd searched (of_decide_eq_false (clear i (by omega) small))
    · exact before (off / gBlockSizeBytes + c) (by omega) (by omega) (of_decide_eq_true set) hole
  · rintro ⟨early,searched⟩
    refine ⟨searched,fun j from_ upTo looked => ?_⟩
    have here := mapped (j - off / gBlockSizeBytes) (by omega) (by omega)
    rw [Nat.add_sub_cancel' from_] at here
    exact here looked

end Search

section Aligned
variable {Store : Type} (entries : EntryStore Store) (device : Bytes) {f : Inode}

theorem ioListLog_effect (ok : f.Ok entries) (off dst m x : Nat) :
    effect (ioListLog f off m dst) ((dst + x : Nat) : Int) =
      if x / gBlockSizeBytes < m then
        (newest (f.logHead (off / gBlockSizeBytes + x / gBlockSizeBytes)) (x % gBlockSizeBytes)).map fun p =>
          ⟨⟨p.addr,p.size,p.offset⟩,dst + x / gBlockSizeBytes * gBlockSizeBytes + p.offset,true⟩
      else none := by
  have block : gBlockSizeBytes = 4096 := rfl
  induction m with
  | zero => rfl
  | succ m ih =>
    have grown : ioListLog f off (m + 1) dst =
        ioListLog f off m dst ++ patchesOf (f.logHead (off / gBlockSizeBytes + m)) (dst + m * gBlockSizeBytes) := by
      unfold ioListLog
      rw [range_succ,flatMap_append,flatMap_singleton]
    rw [grown,effect_append,ih]
    by_cases last : x / gBlockSizeBytes = m
    · have place : dst + x = dst + m * gBlockSizeBytes + x % gBlockSizeBytes := by
        have parts := Nat.div_add_mod' x gBlockSizeBytes
        rw [last] at parts
        omega
      rw [if_neg (by omega),if_pos (by omega),or_none,last,place]
      exact patchesOf_effect _ _ _
    · have apart : effect (patchesOf (f.logHead (off / gBlockSizeBytes + m)) (dst + m * gBlockSizeBytes)) ((dst + x : Nat) : Int) = none := by
        refine effect_none (patchesOf_apart (fun p member => (ok.patches _ p member).2.1) ?_)
        rw [block] at last ⊢
        omega
      have same : x / gBlockSizeBytes < m + 1 ↔ x / gBlockSizeBytes < m := by omega
      rw [apart,none_or,if_congr same rfl rfl]

theorem ioListLog_ok (ok : f.Ok entries) (off dst m : Nat) :
    ∀ r ∈ ioListLog f off m dst, r.Ok entries ∧ ∀ y : Int, y < dst ∨ (dst + m * gBlockSizeBytes : Nat) ≤ y → r.covers y = false := by
  intro r member
  obtain ⟨i,less,listed⟩ := mem_flatMap.mp member
  have small := mem_range.mp less
  obtain ⟨p,inside,rfl⟩ := mem_map.mp listed
  obtain ⟨positive,fits,own⟩ := ok.patches _ p (mem_reverse.mp inside)
  refine ⟨patch_ok entries own positive fits,fun y out => ?_⟩
  have block : gBlockSizeBytes = 4096 := rfl
  refine patchesOf_apart (fun p member => (ok.patches _ p member).2.1) ?_ _ listed
  rw [block] at out ⊢
  omega

variable {ioSize : Nat} {state : Store × Buffer}

theorem doAlignedRead_piece (ok : f.Ok entries) (kept : SameMaps entries s state.1)
    (dst : Nat) (aligned : off % gBlockSizeBytes = 0) (whole : ioSize % gBlockSizeBytes = 0) (size : ioSize < 2 ^ 31)
    (range : off / gBlockSizeBytes + ioSize / gBlockSizeBytes ≤ extMaxBlocks) :
    ∃ state', doAlignedRead entries device f state off ioSize dst = some state' ∧
      PieceRead entries device f (Reached f off) s off ioSize dst state state' := by
  have block : gBlockSizeBytes = 4096 := rfl
  have length : ioSize / gBlockSizeBytes * gBlockSizeBytes = ioSize := Nat.div_mul_cancel (Nat.dvd_of_mod_eq_zero whole)
  generalize hm : ioSize / gBlockSizeBytes = m at *
  obtain ⟨ioList,c,searched,loaded,ends⟩ : ∃ ioList c,
      (if bitmapWeight (ioBitmap f off m) = 0 then some []
        else doGlobalSearch f off dst m (ioBitmap f off m) (m - bitmapWeight (ioBitmap f off m)) []) = some ioList ∧
      Loaded f off dst m (fun i => decide (Searched f (off / gBlockSizeBytes + i))) c ioList ∧
      Ends f off m (fun i => decide (Searched f (off / gBlockSizeBytes + i))) c := by
    have start : Loaded f off dst m (fun i => decide (Searched f (off / gBlockSizeBytes + i))) 0 [] :=
      ⟨fun r member => absurd member not_mem_nil,fun x small => by simp⟩
    have bits := ioBitmap_masked f off m
    by_cases none : bitmapWeight (ioBitmap f off m) = 0
    · refine ⟨[],0,if_pos none,start,.inl fun i low small => ?_⟩
      rw [bits] at none
      exact weight_zero none low small
    · have bound : bitmapWeight (ioBitmap f off m) ≤ m := by
        have most := count_le_length (a := true) (l := ioBitmap f off m)
        rwa [bits,masked_length,←bits] at most
      rw [bits] at none bound
      obtain ⟨list,c,found,loaded,ends⟩ := doGlobalSearch_spec ok range (by rw [length]; exact size) start none bound
        (Nat.sub_add_cancel bound)
      exact ⟨list,c,by rw [bits,if_neg none]; exact found,loaded,ends⟩
  have done : doAlignedRead entries device f state off ioSize dst =
      some (submitAll entries device (ioList ++ ioListLog f off m dst) state) := by
    unfold doAlignedRead
    rw [if_pos whole]
    dsimp only
    rw [hm,searched,map_some]
  have logs := ioListLog_ok entries ok off dst m
  have place : ∀ x, (off + x) / gBlockSizeBytes = off / gBlockSizeBytes + x / gBlockSizeBytes ∧
      (off + x) % gBlockSizeBytes = x % gBlockSizeBytes := fun x => by
    rw [block] at aligned ⊢
    omega
  have blockOf : ∀ x, x < ioSize → x / gBlockSizeBytes < m := fun x less => by
    rw [block] at length ⊢
    omega
  refine ⟨_,done,pieceRead_of_effects entries device f kept (fun r member => ?_) (fun r member => (logs r member).1) ?_ ?_ ?_ ?_ ?_⟩
  · obtain ⟨first,count,p,run,rfl⟩ := loaded.runs r member
    exact runRequest_ok ok run (by rw [length]; exact size)
  · intro x less p found
    rw [(place x).1,(place x).2] at found
    rw [(place x).2,ioListLog_effect entries ok,if_pos (blockOf x less),found]
    refine ⟨_,rfl,?_⟩
    obtain ⟨_,low,high⟩ := newest_some found
    have parts := Nat.div_add_mod' x gBlockSizeBytes
    have position : ((dst + x : Nat) : Int) = ((dst + x / gBlockSizeBytes * gBlockSizeBytes + p.offset : Nat) : Int) +
        ((x % gBlockSizeBytes - p.offset : Nat) : Int) := by omega
    rw [position]
    exact patch_byte entries device low (Nat.mod_lt _ (by decide))
  · intro x less unpatched
    have bare := Classical.not_not.mp unpatched
    rw [(place x).1,(place x).2] at bare
    rw [ioListLog_effect entries ok,if_pos (blockOf x less),bare]
    rfl
  · intro x less reached
    rw [(place x).1] at reached ⊢
    obtain ⟨early,looked⟩ := (loaded.reached ends (blockOf x less)).mp reached
    obtain ⟨r,first,count,p,found,run,rfl,low,high⟩ := loaded.run (by rw [length]; exact less) early (decide_eq_true looked)
    exact ⟨_,_,run.block low high,found,by rw [(place x).2]; exact runRequest_byte low⟩
  · intro x less missed
    rw [(place x).1] at missed
    cases found : effect ioList ((dst + x : Nat) : Int) with
    | none => rfl
    | some r =>
      obtain ⟨early,looked⟩ := (loaded.exact x (by rw [length]; exact less)).mp ⟨r,effect_some found⟩
      exact absurd ((loaded.reached ends (blockOf x less)).mpr ⟨early,of_decide_eq_true looked⟩) missed
  · intro y out r member
    rcases mem_append.mp member with early | late
    · obtain ⟨first,count,p,run,rfl⟩ := loaded.runs r early
      have within := run.within
      refine decide_eq_false ?_
      unfold runRequest
      rw [block] at length ⊢
      dsimp only
      omega
    · exact (logs r late).2 y (by rw [length]; exact out)

end Aligned

section Whole
variable {Store : Type} {entries : EntryStore Store} {device : Bytes} {f : Inode} {s : Store}

variable {state : Store × Buffer} {ioSize : Nat}

theorem pieceRead_empty (kept : SameMaps entries s state.1) :
    PieceRead entries device f loaded s off 0 dst state state :=
  ⟨kept,fun _ less => absurd less (Nat.not_lt_zero _),fun _ less => absurd less (Nat.not_lt_zero _),fun _ _ => rfl⟩

theorem PieceRead.congr {loaded loaded' : Nat → Prop} {state' : Store × Buffer}
    (piece : PieceRead entries device f loaded s off ioSize dst state state')
    (agree : ∀ x, x < ioSize → (loaded' ((off + x) / gBlockSizeBytes) ↔ loaded ((off + x) / gBlockSizeBytes))) :
    PieceRead entries device f loaded' s off ioSize dst state state' :=
  ⟨piece.same,fun x less either => piece.filled x less (either.imp_right (agree x less).mp),
    fun x less bare missed => piece.missed x less bare (mt (agree x less).mpr missed),piece.outside⟩

theorem PieceRead.append {off off' left right dst dst' : Nat} {state₁ state₂ : Store × Buffer}
    (first : PieceRead entries device f loaded s off left dst state state₁)
    (second : PieceRead entries device f loaded s off' right dst' state₁ state₂) (next : off + left = off') (place : dst + left = dst') :
    PieceRead entries device f loaded s off (left + right) dst state state₂ := by
  subst next
  subst place
  have early : ∀ x, x < left → state₂.2 ((dst + x : Nat) : Int) = state₁.2 ((dst + x : Nat) : Int) := fun x less =>
    second.outside _ (.inl (by omega))
  have late : ∀ x, left ≤ x → state₁.2 ((dst + x : Nat) : Int) = state.2 ((dst + x : Nat) : Int) := fun x behind =>
    first.outside _ (.inr (by omega))
  have shift : ∀ x, left ≤ x → off + left + (x - left) = off + x ∧ dst + left + (x - left) = dst + x := fun x behind => by omega
  refine ⟨second.same,fun x less either => ?_,fun x less bare missed => ?_,fun y out => ?_⟩
  · by_cases here : x < left
    · exact (early x here).trans (first.filled x here either)
    · have there := second.filled (x - left) (by omega)
      rw [(shift x (by omega)).1,(shift x (by omega)).2] at there
      exact there either
  · by_cases here : x < left
    · exact (early x here).trans (first.missed x here bare missed)
    · have there := second.missed (x - left) (by omega)
      rw [(shift x (by omega)).1,(shift x (by omega)).2] at there
      exact (there bare missed).trans (late x (by omega))
  · exact (second.outside y (by omega)).trans (first.outside y (by omega))

def loadedBy (f : Inode) (off stop k : Nat) : Prop :=
  if align off / gBlockSizeBytes ≤ k ∧ k < stop / gBlockSizeBytes then Reached f (align off) k else f.tree.map k ≠ none

variable {size off n : Nat}

theorem read_or_empty {read : Reader (Store × Buffer)} {loaded : Nat → Prop} {dst : Nat} (kept : SameMaps entries s state.1)
    (reads : 0 < ioSize → ∃ state', read state off ioSize dst = some state' ∧
      PieceRead entries device f loaded s off ioSize dst state state') :
    ∃ state', unlessEmpty read state off ioSize dst = some state' ∧
      PieceRead entries device f loaded s off ioSize dst state state' := by
  unfold unlessEmpty
  by_cases empty : ioSize = 0
  · subst empty
    exact ⟨state,if_pos rfl,pieceRead_empty kept⟩
  · rw [if_neg empty]
    exact reads (Nat.pos_of_ne_zero empty)

theorem readi_bytes (device : Bytes) (ok : f.Ok entries) (state : Store × Buffer) (kept : SameMaps entries s state.1) (addressed : Addressed size off n)
    (count : n < 2 ^ 31) (range : readStop size off n ≤ extMaxBlocks * gBlockSizeBytes) :
    ∃ state' ret, readi (doUnalignedRead entries device f) (doAlignedRead entries device f) state size off n = some (state',ret) ∧
      PieceRead entries device f (loadedBy f off (readStop size off n)) s off (readStop size off n - off) 0 state state' := by
  have block : gBlockSizeBytes = 4096 := rfl
  obtain ⟨some,bound,_⟩ := addressed.bounds
  obtain ⟨least,near,boundary⟩ := align_bounds off
  have limit : readStop size off n ≤ off + n := min_le_left _ _
  by_cases within : Inside off (readStop size off n)
  · have read : readi (doUnalignedRead entries device f) (doAlignedRead entries device f) state size off n = _ :=
      readi_inside addressed within
    obtain ⟨short,fits,early⟩ := within.bounds
    generalize readStop size off n = stop at *
    have first : off / gBlockSizeBytes < extMaxBlocks := by
      rw [block] at range ⊢
      omega
    obtain ⟨state',done,piece⟩ := doUnalignedRead_piece entries device ok kept 0 (by omega) short fits first
    rw [done] at read
    refine ⟨_,_,read,piece.congr fun x less => ?_⟩
    unfold loadedBy
    rw [if_neg]
    rw [block] at early ⊢
    omega
  · have read : readi (doUnalignedRead entries device f) (doAlignedRead entries device f) state size off n = _ :=
      (readi_blocks addressed within).1 (by
        have parts := Nat.div_mul_le_self (readStop size off n) gBlockSizeBytes
        omega)
    have reaches : align off ≤ readStop size off n / gBlockSizeBytes * gBlockSizeBytes := by
      by_contra early
      refine within ?_
      unfold Inside
      rw [block] at early boundary near ⊢
      omega
    generalize readStop size off n = stop at *
    have parts := Nat.div_add_mod' stop gBlockSizeBytes
    have tail := Nat.mod_lt stop (by decide : 0 < gBlockSizeBytes)
    have lastWhole : stop / gBlockSizeBytes * gBlockSizeBytes % gBlockSizeBytes = 0 := Nat.mul_mod_left _ _
    have lastBlock : stop / gBlockSizeBytes * gBlockSizeBytes / gBlockSizeBytes = stop / gBlockSizeBytes :=
      Nat.mul_div_cancel _ (by decide)
    have blocks : stop / gBlockSizeBytes ≤ extMaxBlocks := Nat.div_le_of_le_mul (by rwa [mul_comm])
    generalize stop / gBlockSizeBytes * gBlockSizeBytes = last at *
    have head : off % gBlockSizeBytes + (align off - off) ≤ gBlockSizeBytes := by
      unfold align
      rw [block]
      omega
    have middle : (last - align off) % gBlockSizeBytes = 0 := by
      rw [block] at boundary lastWhole ⊢
      omega
    obtain ⟨state₁,done₁,first⟩ := read_or_empty kept fun some =>
      doUnalignedRead_piece entries device ok kept 0 some (by omega) head (by rw [block] at range ⊢; omega)
    obtain ⟨state₂,done₂,second⟩ := read_or_empty first.same fun _ =>
      doAlignedRead_piece entries device ok first.same (align off - off) boundary middle (by omega) (by rw [block] at *; omega)
    obtain ⟨state₃,done₃,third⟩ := read_or_empty second.same fun some =>
      doUnalignedRead_piece entries device ok second.same (last - off) some tail (by rw [lastWhole]; omega) (by rw [block] at *; omega)
    rw [done₁,bind_some,done₂,bind_some,done₃,map_some] at read
    refine ⟨_,_,read,?_⟩
    -- the two ends are in blocks that the read does not cover whole, the middle is in those that it does
    have first' : PieceRead entries device f (loadedBy f off stop) s off (align off - off) 0 state state₁ :=
      first.congr fun x less => by
        unfold loadedBy
        rw [if_neg]
        unfold align at less ⊢
        rw [block] at less ⊢
        omega
    have second' : PieceRead entries device f (loadedBy f off stop) s (align off) (last - align off) (align off - off) state₁ state₂ :=
      second.congr fun x less => by
        unfold loadedBy
        rw [if_pos]
        rw [block] at *
        omega
    have third' : PieceRead entries device f (loadedBy f off stop) s last (stop % gBlockSizeBytes) (last - off) state₂ state₃ :=
      third.congr fun x less => by
        unfold loadedBy
        rw [if_neg]
        rw [block] at *
        omega
    have whole : align off - off + (last - align off) + stop % gBlockSizeBytes = stop - off := by omega
    rw [←whole]
    exact (first'.append second' (by omega) (by omega)).append third' (by omega) (by omega)

end Whole

def ReadsRight {Store : Type} (entries : EntryStore Store) (device : Bytes) (f : Inode) (s : Store) (size off n : Nat) : Prop :=
  ∀ buffer : Buffer, ∃ s' out ret,
    readi (doUnalignedRead entries device f) (doAlignedRead entries device f) (s,buffer) size off n = some ((s',out),ret) ∧
    (∀ x : Nat, x < min (off + n) size - off → out x = fileByte entries device f s (off + x)) ∧
    ∀ y : Int, y < 0 ∨ (min (off + n) size - off : Nat) ≤ y → out y = buffer y

theorem read_right_iff_loaded {Store : Type} (entries : EntryStore Store) (device : Bytes) (f : Inode) (s : Store) {size off n : Nat}
    (formed : WellFormed entries s) (ok : f.Ok entries) (file : size < 2 ^ 64) (inside : off < size) (some : 1 ≤ n) (count : n < 2 ^ 31)
    (range : min (off + n) size ≤ extMaxBlocks * gBlockSizeBytes) :
    ReadsRight entries device f s size off n ↔
      ∀ a, off ≤ a → a < min (off + n) size → Patched f a ∨ loadedBy f off (min (off + n) size) (a / gBlockSizeBytes) := by
  have block : gBlockSizeBytes = 4096 := rfl
  have most : extMaxBlocks * gBlockSizeBytes < 2 ^ 44 := by decide
  have addressed : Addressed size off n := ⟨file,inside,some,by omega,by omega,by rw [block]; omega⟩
  have kept : SameMaps entries s s := fun _ => ⟨formed,fun _ _ => rfl⟩
  have stop : readStop size off n = min (off + n) size := rfl
  constructor
  · intro right a low high
    by_contra missed
    obtain ⟨bare,unloaded⟩ := not_or.mp missed
    -- a buffer that holds another byte there
    obtain ⟨other,differs⟩ : ∃ other, other ≠ fileByte entries device f s a := by
      by_cases zero : fileByte entries device f s a = 0
      · exact ⟨1,by rw [zero]; decide⟩
      · exact ⟨0,Ne.symm zero⟩
    obtain ⟨s',out,ret,done,bytes,_⟩ := right fun _ => other
    obtain ⟨state',ret',again,piece⟩ := readi_bytes device ok (s,fun _ => other) kept addressed count range
    rw [done] at again
    injection again with same
    injection same with first _
    have place : off + (a - off) = a := Nat.add_sub_cancel' low
    have left := piece.missed (a - off) (by rw [stop]; omega)
    rw [place] at left
    have there := bytes (a - off) (by omega)
    rw [place] at there
    rw [←first,zero_add] at left
    exact differs ((left bare unloaded).symm.trans there)
  · intro loaded buffer
    obtain ⟨⟨s',out⟩,ret,done,piece⟩ := readi_bytes device ok (s,buffer) kept addressed count range
    refine ⟨s',out,ret,done,fun x less => ?_,fun y out => piece.outside y (by rw [stop]; omega)⟩
    have there := piece.filled x less (loaded (off + x) (Nat.le_add_right ..) (by omega))
    rwa [zero_add] at there

def holeFile : Inode :=
  ⟨⟨⟨[],⟨[],none,0,0⟩,0,0,0,⟨fun _ => false,fun _ => false⟩,0,[]⟩,⟨0,leafNode [⟨1,1,600000⟩]⟩⟩,fun _ => []⟩

theorem holeFile_map (k : Nat) : holeFile.tree.map k = if k = 1 then some 600000 else none := by
  show blockMap [⟨1,1,600000⟩] k = _
  unfold blockMap covers
  by_cases second : k = 1
  · subst second
    rfl
  · rw [find?_cons_of_neg (by simpa using by omega),if_neg second]
    rfl

theorem holeFile_ok : holeFile.Ok defaultTable := by
  have short : [(⟨1,1,600000⟩ : Extent)].length ≤ mlfsExtSpaceRoot := by decide
  refine ⟨⟨.inr ⟨1,short,fun l member => ?_⟩,⟨fun e member => ?_,pairwise_singleton _ _⟩⟩,
    fun k p member => absurd member not_mem_nil,fun k b mapped => ?_⟩
  · cases mem_singleton.mp member
    rfl
  · cases mem_singleton.mp member
    exact ⟨by decide,by decide,by decide⟩
  · rw [holeFile_map] at mapped
    split at mapped
    · cases mapped
      show 600000 < 786432
      decide
    · cases mapped

theorem holeFile_second_block : ReadsRight defaultTable (fun _ => 1) holeFile (fun _ => 0) 8192 4096 4096 := by
  refine (read_right_iff_loaded _ _ _ _ (nvm_formed _ _ _ _) holeFile_ok (by decide) (by decide) (by decide) (by decide)
    (by decide)).mpr fun a low high => .inr ?_
  have second : a / gBlockSizeBytes = 1 := by
    have block : gBlockSizeBytes = 4096 := rfl
    rw [block]
    omega
  rw [second]
  refine (if_pos (by decide)).mpr ⟨by decide,fun j low high _ => ?_⟩
  have same : j = 1 := le_antisymm high low
  rw [same,holeFile_map]
  decide

-- The whole file reads wrong: the hole is left as the buffer was, and the block behind it is never read.
theorem hole_stops_read : ∃ s' out ret,
    readi (doUnalignedRead defaultTable (fun _ => 1) holeFile) (doAlignedRead defaultTable (fun _ => 1) holeFile)
      ((fun _ => 0),fun _ => 7) 8192 0 8192 = some ((s',out),ret) ∧
    out 0 = 7 ∧ fileByte defaultTable (fun _ => 1) holeFile (fun _ => 0) 0 = 0 ∧
    out 4096 = 7 ∧ fileByte defaultTable (fun _ => 1) holeFile (fun _ => 0) 4096 = 1 := by
  obtain ⟨⟨s',out⟩,ret,done,first,second⟩ : ∃ out ret,
      readi (doUnalignedRead defaultTable (fun _ => 1) holeFile) (doAlignedRead defaultTable (fun _ => 1) holeFile)
        ((fun _ => 0),fun _ => 7) 8192 0 8192 = some (out,ret) ∧ out.2 0 = 7 ∧ out.2 4096 = 7 := by decide +kernel
  exact ⟨s',out,ret,done,first,rfl,second,rfl⟩

end Assise.FileRead
