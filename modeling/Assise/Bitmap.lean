import Mathlib.Data.BitVec

-- The block bitmap of a device (`struct block_bitmap`), in memory.
namespace Assise.Bitmap

-- `bitmap` is read by bit number: bit `i` is bit `i % 8` of byte `i / 8`, and bit `i % 64` of the
-- 64-bit word `i / 64`. `dirty` is the flag of each bitmap block's descriptor.
structure BlockBitmap where
  bitmap : Nat → Bool
  dirty : Nat → Bool

def bitsPerBitmapBlock : Nat := 4096 * 8

def bitmapFirstWordMask (start : Nat) : BitVec 64 := BitVec.allOnes 64 <<< (start % 64)
def bitmapLastWordMask (nbits : Nat) : BitVec 64 :=
  BitVec.allOnes 64 >>> ((64 - nbits % 64) % 64)

def orWord (bits : Nat → Bool) (word : Nat) (mask : BitVec 64) : Nat → Bool :=
  fun i => bits i || (i / 64 == word && mask.getLsbD (i % 64))

def setWords (bits : Nat → Bool) (word len size : Nat) : Nat → Bool :=
  if 64 ≤ len then
    setWords (orWord bits word (BitVec.allOnes 64)) (word + 1) (len - 64) size
  else if len ≠ 0 then orWord bits word (BitVec.allOnes 64 &&& bitmapLastWordMask size)
  else bits
termination_by len

-- `start` is an unsigned int and `len` an int, negative from 2^31 on; the word pointer has 64 bits.
def bitmapSet (bits : Nat → Bool) (start len : Nat) : Nat → Bool :=
  let start := start % 2 ^ 32
  let len := len % 2 ^ 32
  let bitsToSet := 64 - start % 64
  let size := (start + len) % 2 ^ 32
  if bitsToSet ≤ len ∧ len < 2 ^ 31 then
    setWords (orWord bits (start / 64) (bitmapFirstWordMask start)) (start / 64 + 1)
      (len - bitsToSet) size
  else if len ≠ 0 then
    orWord bits (start / 64) (bitmapFirstWordMask start &&& bitmapLastWordMask size)
  else bits

def bitmapBitsSetRange (b : BlockBitmap) (bit length : Nat) : BlockBitmap where
  bitmap := bitmapSet b.bitmap bit length
  dirty := fun i => b.dirty i ||
    (decide (bit / bitsPerBitmapBlock ≤ i) && decide (i ≤ (bit + length) / bitsPerBitmapBlock))

def bitmapBitsClr (b : BlockBitmap) (byte bit : Nat) : BlockBitmap where
  bitmap := fun i => b.bitmap i && i != byte * 8 + bit
  dirty := fun i => b.dirty i || i == byte / 4096 + bit / bitsPerBitmapBlock

def clearToByte (b : BlockBitmap) (i : Nat) : Nat → BlockBitmap × Nat × Nat
  | 0 => (b,i,0)
  | bcnt + 1 =>
    if i % 8 = 0 then (b,i,bcnt + 1) else clearToByte (bitmapBitsClr b 0 i) (i + 1) bcnt

-- `while (bcnt >= width)`: whole units of `width` bits are zeroed, no descriptor is marked.
def clearUnits (width : Nat) (b : BlockBitmap) (bit bcnt : Nat) : BlockBitmap × Nat × Nat :=
  if 0 < width ∧ width ≤ bcnt then
    clearUnits width {b with bitmap := fun i => b.bitmap i && !(decide (bit ≤ i) && decide (i < bit + width))}
      (bit + width) (bcnt - width)
  else (b,bit,bcnt)
termination_by bcnt

def clearRest (b : BlockBitmap) (byte : Nat) : Nat → BlockBitmap
  | 0 => b
  | i + 1 => bitmapBitsClr (clearRest b byte i) byte i

def bitmapBitsFree (b : BlockBitmap) (bit bcnt : Nat) : BlockBitmap :=
  let (b,bit,bcnt) := clearToByte b bit bcnt
  let (b,bit,bcnt) := clearUnits 32 b bit bcnt
  let (b,bit,bcnt) := clearUnits 16 b bit bcnt
  let (b,bit,bcnt) := clearUnits 8 b bit bcnt
  clearRest b (bit / 8) bcnt

def zeroInWord (bits : Nat → Bool) (base low : Nat) : Option Nat :=
  (List.range' base 64).find? fun i => decide (low ≤ i) && !bits i

def nextZeroWord (bits : Nat → Bool) (nbits : Nat) : Nat → Nat → Nat → Nat
  | 0,_,_ => nbits
  | fuel + 1,base,low =>
    match zeroInWord bits base low with
    | some i => min i nbits
    | none => if nbits ≤ base + 64 then nbits else nextZeroWord bits nbits fuel (base + 64) (base + 64)

def findNextZeroBit (bits : Nat → Bool) (size offset : Nat) : Nat :=
  if size = 0 ∨ size ≤ offset then size
  else nextZeroWord bits size (size / 64 + 1) (offset - offset % 64) offset

def findNextBit (bits : Nat → Bool) (size offset : Nat) : Nat := findNextZeroBit (fun i => !bits i) size offset

def findFirstZeroBit (bits : Nat → Bool) (size : Nat) : Nat := nextZeroWord bits size (size / 64 + 1) 0 0

def withRange (bits : Nat → Bool) (lo hi : Nat) : Nat → Bool :=
  fun i => bits i || (decide (lo ≤ i) && decide (i < hi))
def withoutRange (bits : Nat → Bool) (lo hi : Nat) : Nat → Bool :=
  fun i => bits i && !(decide (lo ≤ i) && decide (i < hi))

theorem firstWordMask_bit {start j : Nat} (inWord : j < 64) :
    (bitmapFirstWordMask start).getLsbD j = decide (start % 64 ≤ j) := by
  simp only [bitmapFirstWordMask,BitVec.getLsbD_shiftLeft,BitVec.getLsbD_allOnes]
  by_cases below : j < start % 64
  · simp [below]
  · have bound : j - start % 64 < 64 := by omega
    simp [below,inWord,bound,not_lt.mp below]

theorem lastWordMask_bit {nbits j : Nat} (inWord : j < 64) :
    (bitmapLastWordMask nbits).getLsbD j = decide (nbits % 64 = 0 ∨ j < nbits % 64) := by
  simp only [bitmapLastWordMask,BitVec.getLsbD_ushiftRight,BitVec.getLsbD_allOnes]
  apply decide_eq_decide.mpr
  omega

variable {bits : Nat → Bool} {lo hi i : Nat}

theorem eq_withRange {after : Nat → Bool}
    (pointwise : ∀ i, after i = true ↔ bits i = true ∨ lo ≤ i ∧ i < hi) : after = withRange bits lo hi := by
  funext i
  rw [Bool.eq_iff_iff,pointwise i]
  simp [withRange]

theorem withRange_bit :
    withRange bits lo hi i = true ↔ bits i = true ∨ lo ≤ i ∧ i < hi := by
  simp [withRange]

theorem orWord_bit {word : Nat} {mask : BitVec 64} :
    orWord bits word mask i = true ↔
      bits i = true ∨ i / 64 = word ∧ mask.getLsbD (i % 64) = true := by
  simp [orWord]

theorem setWords_range (bits : Nat → Bool) (word len size : Nat) (ends : size % 64 = len % 64) :
    setWords bits word len size = withRange bits (64 * word) (64 * word + len) := by
  fun_induction setWords bits word len size with
  | case1 bits word len full ih =>
    rw [ih (by omega)]
    apply eq_withRange
    intro i
    have inWord : i % 64 < 64 := Nat.mod_lt _ (by decide)
    simp only [withRange_bit,orWord_bit,BitVec.getLsbD_allOnes,inWord,decide_true,and_true,or_assoc]
    exact or_congr_right (by omega)
  | case2 bits word len short some =>
    apply eq_withRange
    intro i
    have inWord : i % 64 < 64 := Nat.mod_lt _ (by decide)
    simp only [orWord_bit,BitVec.getLsbD_and,BitVec.getLsbD_allOnes,lastWordMask_bit inWord,inWord,
      decide_true,Bool.true_and,decide_eq_true_eq]
    exact or_congr_right (by omega)
  | case3 bits word len short none =>
    apply eq_withRange
    intro i
    exact (or_iff_left (by omega)).symm

theorem bitmapSet_range (bits : Nat → Bool) (start : Nat) {len : Nat} (few : len < 2 ^ 31) :
    bitmapSet bits start len = withRange bits (start % 2 ^ 32) (start % 2 ^ 32 + len) := by
  unfold bitmapSet
  rw [Nat.mod_eq_of_lt (show len < 2 ^ 32 by omega)]
  generalize start % 2 ^ 32 = start
  apply eq_withRange
  intro i
  have inWord : i % 64 < 64 := Nat.mod_lt _ (by decide)
  by_cases whole : 64 - start % 64 ≤ len ∧ len < 2 ^ 31
  · rw [if_pos whole,setWords_range _ _ _ _ (by omega)]
    simp only [withRange_bit,orWord_bit,firstWordMask_bit inWord,decide_eq_true_eq,or_assoc]
    exact or_congr_right (by omega)
  · rw [if_neg whole]
    by_cases empty : len = 0
    · rw [if_neg (by simpa using empty)]
      exact (or_iff_left (by omega)).symm
    · rw [if_pos empty]
      simp only [orWord_bit,BitVec.getLsbD_and,firstWordMask_bit inWord,lastWordMask_bit inWord,
        Bool.and_eq_true,decide_eq_true_eq]
      exact or_congr_right (by omega)

theorem bitmapBitsSetRange_bitmap (b : BlockBitmap) {bit length : Nat} (low : bit < 2 ^ 32) (few : length < 2 ^ 31) :
    (bitmapBitsSetRange b bit length).bitmap = withRange b.bitmap bit (bit + length) := by
  rw [bitmapBitsSetRange,bitmapSet_range _ _ few,Nat.mod_eq_of_lt low]

theorem eq_withoutRange {after : Nat → Bool}
    (pointwise : ∀ i, after i = true ↔ bits i = true ∧ ¬(lo ≤ i ∧ i < hi)) :
    after = withoutRange bits lo hi := by
  funext i
  rw [Bool.eq_iff_iff,pointwise i]
  simp [withoutRange]
  omega

theorem withoutRange_bit :
    withoutRange bits lo hi i = true ↔ bits i = true ∧ ¬(lo ≤ i ∧ i < hi) := by
  simp [withoutRange]
  omega

theorem withoutRange_empty (bits : Nat → Bool) (lo : Nat) : withoutRange bits lo lo = bits := by
  symm
  apply eq_withoutRange
  intro i
  exact (and_iff_left (by omega)).symm

theorem bitmapBitsClr_bit {b : BlockBitmap} {byte bit : Nat} :
    (bitmapBitsClr b byte bit).bitmap i = true ↔ b.bitmap i = true ∧ i ≠ byte * 8 + bit := by
  simp [bitmapBitsClr]

theorem withoutRange_join (bits : Nat → Bool) {mid : Nat} (low : lo ≤ mid) (high : mid ≤ hi) :
    withoutRange (withoutRange bits lo mid) mid hi = withoutRange bits lo hi := by
  apply eq_withoutRange
  intro i
  simp only [withoutRange_bit,and_assoc]
  exact and_congr_right fun _ => by omega

theorem clearToByte_range (b : BlockBitmap) (i bcnt : Nat) :
    ∃ n ≤ bcnt, (clearToByte b i bcnt).1.bitmap = withoutRange b.bitmap i (i + n) ∧
      (clearToByte b i bcnt).2 = (i + n,bcnt - n) ∧ ((i + n) % 8 = 0 ∨ n = bcnt) := by
  induction bcnt generalizing b i with
  | zero =>
    exact ⟨0,le_refl 0,(withoutRange_empty b.bitmap i).symm,rfl,Or.inr rfl⟩
  | succ bcnt ih =>
    unfold clearToByte
    split
    · rename_i aligned
      exact ⟨0,Nat.zero_le _,(withoutRange_empty b.bitmap i).symm,rfl,Or.inl aligned⟩
    · obtain ⟨n,fits,cleared,left,done⟩ := ih (bitmapBitsClr b 0 i) (i + 1)
      refine ⟨n + 1,by omega,eq_withoutRange fun j => ?_,?_,?_⟩
      · rw [cleared]
        simp only [withoutRange_bit,bitmapBitsClr_bit,and_assoc]
        exact and_congr_right fun _ => by omega
      · rw [left]
        simp only [Prod.mk.injEq]
        omega
      · omega

theorem clearUnits_range (width : Nat) (b : BlockBitmap) (bit bcnt : Nat) :
    ∃ n ≤ bcnt, (clearUnits width b bit bcnt).1.bitmap = withoutRange b.bitmap bit (bit + n) ∧
      (clearUnits width b bit bcnt).2 = (bit + n,bcnt - n) ∧ width ∣ n := by
  fun_induction clearUnits width b bit bcnt with
  | case1 b bit bcnt unit ih =>
    obtain ⟨n,fits,cleared,left,units⟩ := ih
    refine ⟨width + n,by omega,?_,?_,Nat.dvd_add (Nat.dvd_refl width) units⟩
    · rw [cleared]
      exact (withoutRange_join b.bitmap (by omega) (by omega)).trans (by rw [add_assoc])
    · rw [left]
      simp only [Prod.mk.injEq]
      omega
  | case2 b bit bcnt none =>
    exact ⟨0,Nat.zero_le _,(withoutRange_empty b.bitmap bit).symm,rfl,Nat.dvd_zero width⟩

theorem clearRest_range (b : BlockBitmap) (byte bcnt : Nat) :
    (clearRest b byte bcnt).bitmap = withoutRange b.bitmap (byte * 8) (byte * 8 + bcnt) := by
  induction bcnt with
  | zero => exact (withoutRange_empty b.bitmap _).symm
  | succ bcnt ih =>
    apply eq_withoutRange
    intro i
    simp only [clearRest,bitmapBitsClr_bit,ih,withoutRange_bit,and_assoc]
    exact and_congr_right fun _ => by omega

theorem clearToByte_reach (b : BlockBitmap) (i bcnt : Nat) :
    (clearToByte b i bcnt).2.1 = i + min bcnt ((8 - i % 8) % 8) := by
  induction bcnt generalizing b i with
  | zero => simp [clearToByte]
  | succ bcnt ih =>
    unfold clearToByte
    split
    · dsimp only
      omega
    · rw [ih]
      omega

theorem clearUnits_left {width : Nat} (positive : 0 < width) (b : BlockBitmap) (bit bcnt : Nat) :
    (clearUnits width b bit bcnt).2.2 < width := by
  fun_induction clearUnits width b bit bcnt with
  | case1 b bit bcnt unit ih => exact ih
  | case2 b bit bcnt rest =>
    dsimp only
    omega

theorem clearUnits_dirty (width : Nat) (b : BlockBitmap) (bit bcnt : Nat) :
    (clearUnits width b bit bcnt).1.dirty = b.dirty := by
  fun_induction clearUnits width b bit bcnt with
  | case1 b bit bcnt unit ih => exact ih
  | case2 b bit bcnt rest => rfl

theorem bitmapBitsFree_stages (b : BlockBitmap) (bit bcnt : Nat) :
    ∃ units tail b', bitmapBitsFree b bit bcnt = clearRest b' ((bit + min bcnt ((8 - bit % 8) % 8) + units) / 8) tail ∧
      b'.bitmap = withoutRange b.bitmap bit (bit + min bcnt ((8 - bit % 8) % 8) + units) ∧
      b'.dirty = (clearToByte b bit bcnt).1.dirty ∧ 8 ∣ units ∧ tail < 8 ∧
      bcnt = min bcnt ((8 - bit % 8) % 8) + units + tail := by
  unfold bitmapBitsFree
  have reach := clearToByte_reach b bit bcnt
  obtain ⟨n₁,fits₁,cleared₁,left₁,_⟩ := clearToByte_range b bit bcnt
  generalize clearToByte b bit bcnt = after₁ at *
  obtain ⟨b₁,rest₁⟩ := after₁
  subst left₁
  have head : n₁ = min bcnt ((8 - bit % 8) % 8) := Nat.add_left_cancel reach
  rw [←head]
  have same₂ := clearUnits_dirty 32 b₁ (bit + n₁) (bcnt - n₁)
  obtain ⟨n₂,fits₂,cleared₂,left₂,units₂⟩ := clearUnits_range 32 b₁ (bit + n₁) (bcnt - n₁)
  simp only
  generalize clearUnits 32 b₁ (bit + n₁) (bcnt - n₁) = after₂ at *
  obtain ⟨b₂,rest₂⟩ := after₂
  subst left₂
  have same₃ := clearUnits_dirty 16 b₂ (bit + n₁ + n₂) (bcnt - n₁ - n₂)
  obtain ⟨n₃,fits₃,cleared₃,left₃,units₃⟩ := clearUnits_range 16 b₂ (bit + n₁ + n₂) (bcnt - n₁ - n₂)
  simp only
  generalize clearUnits 16 b₂ (bit + n₁ + n₂) (bcnt - n₁ - n₂) = after₃ at *
  obtain ⟨b₃,rest₃⟩ := after₃
  subst left₃
  have same₄ := clearUnits_dirty 8 b₃ (bit + n₁ + n₂ + n₃) (bcnt - n₁ - n₂ - n₃)
  have few := clearUnits_left (by decide : 0 < 8) b₃ (bit + n₁ + n₂ + n₃) (bcnt - n₁ - n₂ - n₃)
  obtain ⟨n₄,fits₄,cleared₄,left₄,units₄⟩ :=
    clearUnits_range 8 b₃ (bit + n₁ + n₂ + n₃) (bcnt - n₁ - n₂ - n₃)
  simp only
  generalize clearUnits 8 b₃ (bit + n₁ + n₂ + n₃) (bcnt - n₁ - n₂ - n₃) = after₄ at *
  obtain ⟨b₄,rest₄⟩ := after₄
  subst left₄
  simp only at cleared₁ cleared₂ cleared₃ cleared₄ same₂ same₃ same₄ few ⊢
  have place : bit + n₁ + n₂ + n₃ + n₄ = bit + n₁ + (n₂ + n₃ + n₄) := by omega
  refine ⟨n₂ + n₃ + n₄,bcnt - n₁ - n₂ - n₃ - n₄,b₄,by rw [place],?_,same₄.trans (same₃.trans same₂),by omega,few,by omega⟩
  rw [cleared₄,cleared₃,cleared₂,cleared₁,withoutRange_join _ (by omega) (by omega),withoutRange_join _ (by omega) (by omega),
    withoutRange_join _ (by omega) (by omega),place]

theorem bitmapBitsFree_bitmap (b : BlockBitmap) (bit bcnt : Nat) :
    (bitmapBitsFree b bit bcnt).bitmap = withoutRange b.bitmap bit (bit + bcnt) := by
  obtain ⟨units,tail,b',free,cleared,_,bytes,_,whole⟩ := bitmapBitsFree_stages b bit bcnt
  rw [free]
  apply eq_withoutRange
  intro i
  rw [clearRest_range,cleared]
  simp only [withoutRange_bit,and_assoc]
  exact and_congr_right fun _ => by omega

structure NextZero (bits : Nat → Bool) (nbits low found : Nat) : Prop where
  bound : found ≤ nbits
  passed : ∀ i, low ≤ i → i < found → bits i = true
  zero : found < nbits → low ≤ found ∧ bits found = false

theorem zeroInWord_some {base low : Nat} (found : zeroInWord bits base low = some i) :
    (low ≤ i ∧ bits i = false) ∧ ∀ j, base ≤ j → j < i → low ≤ j → bits j = true := by
  unfold zeroInWord at found
  obtain ⟨here,front,back,split,before⟩ := List.find?_eq_some_iff_append.mp found
  refine ⟨by simpa using here,fun j above below reached => ?_⟩
  -- A word is listed in order, so `j` stands before `i`.
  have listed : j ∈ List.range' base 64 := by
    have inWord : i ∈ List.range' base 64 := split ▸ (by simp)
    simp only [List.mem_range'_1] at inWord ⊢
    omega
  have order : (List.range' base 64).Pairwise (· < ·) := List.pairwise_lt_range'
  rw [split] at listed order
  obtain ⟨_,later,_⟩ := List.pairwise_append.mp order
  rcases List.mem_append.mp listed with inFront | inBack
  · have set := before j inFront
    simpa [reached] using set
  · rcases List.mem_cons.mp inBack with rfl | behind
    · exact absurd below (lt_irrefl _)
    · have above' := (List.pairwise_cons.mp later).1 j behind
      omega

theorem zeroInWord_none {base low : Nat} (missing : zeroInWord bits base low = none) :
    ∀ j, base ≤ j → j < base + 64 → low ≤ j → bits j = true := by
  intro j above below reached
  have all := List.find?_eq_none.mp missing j (by simp only [List.mem_range'_1]; omega)
  simpa [reached] using all

theorem nextZeroWord_spec (bits : Nat → Bool) (nbits : Nat) (fuel base low : Nat) (start : base ≤ low)
    (near : low < base + 64) (enough : nbits ≤ base + 64 * fuel) :
    NextZero bits nbits low (nextZeroWord bits nbits fuel base low) := by
  induction fuel generalizing base low with
  | zero => exact ⟨le_refl _,fun i reached below => (by simp only [nextZeroWord] at below; omega),fun less => absurd less (lt_irrefl _)⟩
  | succ fuel ih =>
    unfold nextZeroWord
    cases found : zeroInWord bits base low with
    | some i =>
      obtain ⟨here,before⟩ := zeroInWord_some found
      dsimp only
      refine ⟨min_le_right i nbits,fun j reached below => ?_,fun inside => ?_⟩
      · exact before j (by omega) (lt_of_lt_of_le below (min_le_left i nbits)) reached
      · have same : min i nbits = i := by omega
        rw [same]
        exact here
    | none =>
      have word := zeroInWord_none found
      dsimp only
      split
      · exact ⟨le_refl _,fun j reached below => word j (by omega) (by omega) reached,
          fun less => absurd less (lt_irrefl _)⟩
      · obtain ⟨bound,passed,zero⟩ := ih (base + 64) (base + 64) (le_refl _) (by omega) (by omega)
        refine ⟨bound,fun j reached below => ?_,fun inside => ?_⟩
        · by_cases inWord : j < base + 64
          · exact word j (by omega) inWord reached
          · exact passed j (by omega) below
        · obtain ⟨above,clear⟩ := zero inside
          exact ⟨by omega,clear⟩

theorem findNextZeroBit_spec (bits : Nat → Bool) {size offset : Nat} (inside : offset < size) :
    NextZero bits size offset (findNextZeroBit bits size offset) := by
  unfold findNextZeroBit
  rw [if_neg (by omega)]
  exact nextZeroWord_spec bits size _ _ _ (by omega) (by omega) (by omega)

theorem findNextZeroBit_le (bits : Nat → Bool) (size offset : Nat) : findNextZeroBit bits size offset ≤ size := by
  by_cases inside : offset < size
  · exact (findNextZeroBit_spec bits inside).bound
  · unfold findNextZeroBit
    rw [if_pos (Or.inr (Nat.le_of_not_lt inside))]

theorem findFirstZeroBit_spec (bits : Nat → Bool) (size : Nat) :
    NextZero bits size 0 (findFirstZeroBit bits size) :=
  nextZeroWord_spec bits size _ 0 0 (le_refl 0) (by omega) (by omega)

end Assise.Bitmap
