import Assise.Bitmap
import Assise.Lib.Runs

-- The block bitmap and its copy on the device: which bits and descriptors the calls change, and what
-- `store_all_bitmap` leaves behind.
namespace Assise.BitmapStore

open Bitmap Lib.Runs

theorem clearToByte_dirty (b : BlockBitmap) (i bcnt k : Nat) :
    (clearToByte b i bcnt).1.dirty k = true ↔ b.dirty k = true ∨ 0 < bcnt ∧ i % 8 ≠ 0 ∧ k = i / bitsPerBitmapBlock := by
  induction bcnt generalizing b i with
  | zero => simp [clearToByte]
  | succ bcnt ih =>
    unfold clearToByte
    split
    · rename_i aligned
      simp [aligned]
    · rename_i inside
      rw [ih]
      simp only [bitmapBitsClr,bitsPerBitmapBlock,Bool.or_eq_true,beq_iff_eq,or_assoc]
      refine or_congr_right ?_
      omega

theorem clearRest_dirty (b : BlockBitmap) (byte : Nat) {bcnt : Nat} (few : bcnt < 8) (k : Nat) :
    (clearRest b byte bcnt).dirty k = true ↔ b.dirty k = true ∨ 0 < bcnt ∧ k = byte / 4096 := by
  induction bcnt with
  | zero => simp [clearRest]
  | succ bcnt ih =>
    unfold clearRest
    simp only [bitmapBitsClr,bitsPerBitmapBlock,Bool.or_eq_true,beq_iff_eq]
    rw [ih (by omega),or_assoc]
    refine or_congr_right ?_
    omega

def Marks (bit bcnt k : Nat) : Prop :=
  0 < bcnt ∧ (bit % 8 ≠ 0 ∧ k = bit / bitsPerBitmapBlock ∨ (bit + bcnt) % 8 ≠ 0 ∧ k = (bit + bcnt - 1) / bitsPerBitmapBlock)

theorem bitmapBitsFree_dirty (b : BlockBitmap) (bit bcnt k : Nat) :
    (bitmapBitsFree b bit bcnt).dirty k = true ↔ b.dirty k = true ∨ Marks bit bcnt k := by
  obtain ⟨units,tail,b',free,_,marked,bytes,few,whole⟩ := bitmapBitsFree_stages b bit bcnt
  rw [free,clearRest_dirty b' _ few,marked,clearToByte_dirty,or_assoc]
  refine or_congr_right ?_
  unfold Marks bitsPerBitmapBlock
  omega

def sizeOfBitmap (nrblocks : Nat) : Nat := nrblocks / 8 + if nrblocks % 8 ≠ 0 then 1 else 0

def blocksOfBitmap (nrblocks : Nat) : Nat :=
  sizeOfBitmap nrblocks / 4096 + if sizeOfBitmap nrblocks % 4096 ≠ 0 then 1 else 0

theorem block_inside {bit nrblocks : Nat} (inside : bit < nrblocks) : bit / bitsPerBitmapBlock < blocksOfBitmap nrblocks := by
  unfold blocksOfBitmap sizeOfBitmap bitsPerBitmapBlock
  split <;> split <;> omega

-- The bitmap of a device of `nrBits` blocks in memory, and the bitmap blocks of the device, by bit number as well.
structure StoredBitmap where
  nrBits : Nat
  memory : BlockBitmap
  device : Nat → Bool

def readAllBitmap (nrBits : Nat) (device : Nat → Bool) : StoredBitmap := ⟨nrBits,⟨device,fun _ => false⟩,device⟩

def storeBlock (b : StoredBitmap) (i : Nat) : StoredBitmap :=
  if b.memory.dirty i then
    { b with
      memory := {b.memory with dirty := fun k => b.memory.dirty k && k != i}
      device := fun j => if j / bitsPerBitmapBlock = i then b.memory.bitmap j else b.device j }
  else b

def storeAllBitmap (b : StoredBitmap) : StoredBitmap := (List.range (blocksOfBitmap b.nrBits)).foldl storeBlock b

inductive Call where
  | setRange (bit length : Nat)
  | free (bit bcnt : Nat)
deriving DecidableEq, Repr

def Call.first : Call → Nat
  | .setRange bit _ | .free bit _ => bit

def Call.count : Call → Nat
  | .setRange _ length => length
  | .free _ bcnt => bcnt

def Call.bit : Call → Bool
  | .setRange .. => true
  | .free .. => false

def Call.apply : Call → BlockBitmap → BlockBitmap
  | .setRange bit length,b => bitmapBitsSetRange b bit length
  | .free bit bcnt,b => bitmapBitsFree b bit bcnt

-- The first position and the length survive the types of `bitmap_set`.
def Call.Short : Call → Prop
  | .setRange bit length => bit < 2 ^ 32 ∧ length < 2 ^ 31
  | .free .. => True

def Call.Touches (call : Call) (b : BlockBitmap) (i : Nat) : Prop := (call.apply {b with dirty := fun _ => false}).dirty i = true

variable {call : Call}

theorem Call.apply_bit (short : call.Short) (b : BlockBitmap) (j : Nat) : (call.apply b).bitmap j =
    if call.first ≤ j ∧ j < call.first + call.count then call.bit else b.bitmap j := by
  rw [Bool.eq_iff_iff]
  cases call with
  | setRange bit length =>
    rw [Call.apply,bitmapBitsSetRange_bitmap b short.1 short.2,withRange_bit]
    simp only [Call.first,Call.count,Call.bit]
    by_cases inside : bit ≤ j ∧ j < bit + length <;> simp [inside]
  | free bit bcnt =>
    rw [Call.apply,bitmapBitsFree_bitmap,withoutRange_bit]
    simp only [Call.first,Call.count,Call.bit]
    by_cases inside : bit ≤ j ∧ j < bit + bcnt <;> simp [inside]

theorem Call.apply_dirty (call : Call) (b : BlockBitmap) (i : Nat) :
    (call.apply b).dirty i = true ↔ b.dirty i = true ∨ call.Touches b i := by
  cases call with
  | setRange bit length => simp [Call.Touches,Call.apply,bitmapBitsSetRange]
  | free bit bcnt => simp [Call.Touches,Call.apply,bitmapBitsFree_dirty]

theorem Call.touches_free {bit bcnt i : Nat} {b : BlockBitmap} : (Call.free bit bcnt).Touches b i ↔ Marks bit bcnt i := by
  simp [Call.Touches,Call.apply,bitmapBitsFree_dirty]

theorem Call.touches_setRange {bit length i : Nat} {b : BlockBitmap} : (Call.setRange bit length).Touches b i ↔
    bit / bitsPerBitmapBlock ≤ i ∧ i ≤ (bit + length) / bitsPerBitmapBlock := by
  simp [Call.Touches,Call.apply,bitmapBitsSetRange]

theorem storeBlocks (b : StoredBitmap) (k : Nat) :
    (List.range k).foldl storeBlock b =
      { b with
        memory := {b.memory with dirty := fun i => b.memory.dirty i && decide (k ≤ i)}
        device := fun j => if j / bitsPerBitmapBlock < k ∧ b.memory.dirty (j / bitsPerBitmapBlock) = true then b.memory.bitmap j
          else b.device j } := by
  induction k with
  | zero => simp
  | succ k ih =>
    rw [List.range_succ,List.foldl_append,ih,List.foldl_cons,List.foldl_nil,storeBlock]
    simp only [le_refl,decide_true,Bool.and_true]
    by_cases dirty : b.memory.dirty k = true
    · rw [if_pos dirty]
      congr 1
      · congr 1
        funext i
        rw [Bool.eq_iff_iff]
        simp only [Bool.and_eq_true,decide_eq_true_eq,bne_iff_ne,and_assoc]
        exact and_congr_right fun _ => by omega
      · funext j
        by_cases here : j / bitsPerBitmapBlock = k
        · rw [if_pos here,if_pos ⟨by omega,here ▸ dirty⟩]
        · rw [if_neg here]
          exact if_congr (and_congr_left' (by omega)) rfl rfl
    · rw [if_neg dirty]
      congr 1
      · congr 1
        funext i
        rw [Bool.eq_iff_iff]
        simp only [Bool.and_eq_true,decide_eq_true_eq]
        refine and_congr_right fun set => ?_
        have other : i ≠ k := fun same => dirty (same ▸ set)
        omega
      · funext j
        refine if_congr ⟨fun ⟨low,set⟩ => ⟨by omega,set⟩,fun ⟨low,set⟩ => ⟨?_,set⟩⟩ rfl rfl
        have other : j / bitsPerBitmapBlock ≠ k := fun same => dirty (same ▸ set)
        omega

def Synced (b : StoredBitmap) : Prop :=
  ∀ j, j / bitsPerBitmapBlock < blocksOfBitmap b.nrBits → b.memory.dirty (j / bitsPerBitmapBlock) = false →
    b.device j = b.memory.bitmap j

def Persistent (b : StoredBitmap) : Prop :=
  ∀ j, j / bitsPerBitmapBlock < blocksOfBitmap b.nrBits → b.device j = b.memory.bitmap j

theorem storeAll_persistent_iff (b : StoredBitmap) : Persistent (storeAllBitmap b) ↔ Synced b := by
  unfold storeAllBitmap
  rw [storeBlocks]
  unfold Persistent Synced
  refine forall_congr' fun j => imp_congr_right fun inside => ?_
  dsimp only
  by_cases dirty : b.memory.dirty (j / bitsPerBitmapBlock) = true
  · simp [inside,dirty]
  · simp [dirty]

inductive Action where
  | call (call : Call)
  | storeAllBitmap
deriving DecidableEq, Repr

def step (b : StoredBitmap) : Action → Option StoredBitmap
  | .call call => if call.first + call.count ≤ b.nrBits then some {b with memory := call.apply b.memory} else none
  | .storeAllBitmap => some (BitmapStore.storeAllBitmap b)

variable {b : StoredBitmap}

theorem step_call {next : StoredBitmap} (stepped : step b (.call call) = some next) :
    call.first + call.count ≤ b.nrBits ∧ next = {b with memory := call.apply b.memory} := by
  simp only [step,Option.ite_none_right_eq_some,Option.some.injEq] at stepped
  exact ⟨stepped.1,stepped.2.symm⟩

-- A set range starts below 2^32 and does not end where a bitmap block past the last would begin; a free clears set
-- bits only in bitmap blocks that are dirty or that it marks.
def Careful (b : StoredBitmap) : Action → Prop
  | .call (.setRange bit length) => (Call.setRange bit length).Short ∧ (bit + length) / bitsPerBitmapBlock < blocksOfBitmap b.nrBits
  | .call (.free bit bcnt) => ∀ j, bit ≤ j → j < bit + bcnt → b.memory.bitmap j = true →
      b.memory.dirty (j / bitsPerBitmapBlock) = true ∨ Marks bit bcnt (j / bitsPerBitmapBlock)
  | .storeAllBitmap => True

theorem readAllBitmap_synced (nrBits : Nat) (device : Nat → Bool) : Synced (readAllBitmap nrBits device) := fun _ _ _ => rfl

theorem Careful.short (careful : Careful b (.call call)) : call.Short := by
  cases call with
  | setRange bit length => exact careful.1
  | free bit bcnt => trivial

theorem call_synced_iff (synced : Synced b) (short : call.Short) (inside : call.first + call.count ≤ b.nrBits) :
    ((∀ i, call.Touches b.memory i → i < blocksOfBitmap b.nrBits) ∧ Synced {b with memory := call.apply b.memory}) ↔
      Careful b (.call call) := by
  have reached : ∀ j, call.first ≤ j → j < call.first + call.count → j / bitsPerBitmapBlock < blocksOfBitmap b.nrBits :=
    fun j low high => block_inside (lt_of_lt_of_le high inside)
  -- A bitmap block that stays clean was clean and is not marked; only the bits of the range can differ there.
  have clean : Synced {b with memory := call.apply b.memory} ↔ ∀ j, call.first ≤ j → j < call.first + call.count →
      b.memory.dirty (j / bitsPerBitmapBlock) = false → ¬ call.Touches b.memory (j / bitsPerBitmapBlock) → b.memory.bitmap j = call.bit := by
    have kept : ∀ i, (call.apply b.memory).dirty i = false ↔ b.memory.dirty i = false ∧ ¬ call.Touches b.memory i := by
      intro i
      rw [←Bool.not_eq_true,call.apply_dirty,not_or,Bool.not_eq_true]
    unfold Synced
    dsimp only
    constructor
    · intro all j low high dirty touched
      have same := all j (reached j low high) ((kept _).mpr ⟨dirty,touched⟩)
      rw [Call.apply_bit short,if_pos ⟨low,high⟩,synced j (reached j low high) dirty] at same
      exact same
    · intro all j valid dirty
      obtain ⟨dirty,touched⟩ := (kept _).mp dirty
      rw [Call.apply_bit short,synced j valid dirty]
      split
      · rename_i here
        exact all j here.1 here.2 dirty touched
      · rfl
  rw [clean]
  cases call with
  | setRange bit length =>
    simp only [Call.touches_setRange,Careful,Call.first,Call.count]
    have order : bit / bitsPerBitmapBlock ≤ (bit + length) / bitsPerBitmapBlock := Nat.div_le_div_right (Nat.le_add_right _ _)
    refine ⟨fun both => ⟨short,both.1 _ ⟨order,le_refl _⟩⟩,fun fits => ⟨fun i range => lt_of_le_of_lt range.2 fits.2,?_⟩⟩
    intro j low high _ touched
    exact absurd ⟨Nat.div_le_div_right low,Nat.div_le_div_right (le_of_lt high)⟩ touched
  | free bit bcnt =>
    simp only [Call.touches_free,Careful,Call.first,Call.count,Call.bit] at reached ⊢
    have marks : ∀ i, Marks bit bcnt i → i < blocksOfBitmap b.nrBits := by
      rintro i ⟨some_,⟨_,rfl⟩ | ⟨_,rfl⟩⟩
      · exact reached bit (le_refl _) (by omega)
      · exact reached (bit + bcnt - 1) (by omega) (by omega)
    refine ⟨fun both j low high set => ?_,fun careful => ⟨marks,fun j low high dirty touched => ?_⟩⟩
    · by_contra neither
      obtain ⟨dirty,touched⟩ := not_or.mp neither
      rw [both.2 j low high (Bool.not_eq_true _ ▸ dirty) touched] at set
      cases set
    · by_contra set
      rcases careful j low high (by simpa using set) with marked | marked
      · rw [dirty] at marked
        cases marked
      · exact touched marked

theorem storeAll_synced (synced : Synced b) : Synced (storeAllBitmap b) :=
  fun j inside _ => (storeAll_persistent_iff b).mpr synced j inside

theorem step_synced {next : StoredBitmap} {action : Action} (synced : Synced b) (careful : Careful b action)
    (stepped : step b action = some next) : Synced next := by
  cases action with
  | call call =>
    obtain ⟨inside,rfl⟩ := step_call stepped
    exact ((call_synced_iff synced careful.short inside).mpr careful).2
  | storeAllBitmap =>
    cases stepped
    exact storeAll_synced synced

theorem bitmap_stored (nrBits : Nat) (device : Nat → Bool) (actions : List Action) (final : StoredBitmap)
    (careful : Guarded step Careful (readAllBitmap nrBits device) actions)
    (ran : run step (readAllBitmap nrBits device) actions = some final) :
    (∀ call next, step final (.call call) = some next → call.Short →
      (∀ j, next.memory.bitmap j = if call.first ≤ j ∧ j < call.first + call.count then call.bit else final.memory.bitmap j) ∧
      (((∀ i, call.Touches final.memory i → i < blocksOfBitmap final.nrBits) ∧ Persistent (storeAllBitmap next)) ↔
        Careful final (.call call))) ∧
    Persistent (storeAllBitmap final) := by
  have synced := invariant_run step Careful Synced (fun _ _ _ synced careful stepped => step_synced synced careful stepped)
    _ _ actions (readAllBitmap_synced nrBits device) careful ran
  refine ⟨fun call next stepped short => ?_,(storeAll_persistent_iff final).mpr synced⟩
  obtain ⟨inside,rfl⟩ := step_call stepped
  exact ⟨fun j => Call.apply_bit short final.memory j,by
    rw [storeAll_persistent_iff]; exact call_synced_iff synced short inside⟩

theorem bitmap_stored_middle : ∃ final,
    run step (readAllBitmap 100 fun _ => false) [.call (.setRange 10 20),.storeAllBitmap,.call (.free 12 10)] = some final ∧
      Persistent (storeAllBitmap final) := by
  refine ⟨_,rfl,(bitmap_stored 100 (fun _ => false) [.call (.setRange 10 20),.storeAllBitmap,.call (.free 12 10)] _ ⟨?_,?_⟩ rfl).2⟩
  · exact ⟨⟨by decide,by decide⟩,by decide⟩
  · refine ⟨trivial,fun j low high _ => Or.inr ⟨by decide,Or.inl ⟨by decide,?_⟩⟩,trivial⟩
    unfold bitsPerBitmapBlock
    omega

-- A stored range of 32 aligned bits is freed in one step, which marks nothing. Setting the last 32768 bits of one bitmap
-- block writes to the descriptor behind it, and setting bit 2^32 sets bit 0.
theorem freed_word_stays_on_device :
    (∃ final, run step (readAllBitmap 100000 fun _ => false)
        [.call (.setRange 64 32),.storeAllBitmap,.call (.free 64 32),.storeAllBitmap] = some final ∧
      final.memory.bitmap 64 = false ∧ final.device 64 = true) ∧
    (blocksOfBitmap 32768 = 1 ∧ (Call.setRange 0 32768).Touches (readAllBitmap 32768 fun _ => false).memory 1) ∧
    ∃ final, run step (readAllBitmap (2 ^ 33) fun _ => false) [.call (.setRange (2 ^ 32) 8)] = some final ∧
      final.memory.bitmap 0 = true ∧ final.memory.bitmap (2 ^ 32) = false := by
  have bits : ∀ b j, _ := fun b j => @Call.apply_bit (.setRange 64 32) ⟨by decide,by decide⟩ b j
  have cleared : ∀ b j, _ := fun b j => @Call.apply_bit (.free 64 32) trivial b j
  refine ⟨⟨_,rfl,?_,?_⟩,⟨rfl,Call.touches_setRange.mpr (by decide)⟩,by decide +kernel⟩
  · simp only [storeAllBitmap,storeBlocks,bits,cleared]
    decide
  · simp only [storeAllBitmap,storeBlocks,bits,cleared,Call.apply_dirty,Call.touches_free,Call.touches_setRange,Marks,
      Bool.and_eq_true,decide_eq_true_eq]
    decide

end Assise.BitmapStore
