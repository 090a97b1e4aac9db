import Assise.Transactions
import Assise.Lib.Tiling

-- One write, from the cut at block boundaries to the blocks of the log, with 64-bit offsets and 32-bit sizes of entries.
-- `none` stands for a panic or a failed assertion.
namespace Assise.FileWrite

open OpenFiles Lib.Runs Lib.Tiling List Option

def add64 (a b : Nat) : Nat := (a + b) % 2 ^ 64
def sub64 (a b : Nat) : Nat := (a + 2 ^ 64 - b) % 2 ^ 64

def align64 (x : Nat) : Nat := add64 x (gBlockSizeBytes - 1) / gBlockSizeBytes * gBlockSizeBytes

structure Writing where
  i : Nat
  offset : Nat
  size : Nat
  entries : List FileEntry
deriving DecidableEq, Repr

-- `add_to_log` with `add_to_loghdr`. The return value is the size as an `int`, and the callers
-- stop if it is negative.
def addToLog (w : Writing) (length : Nat) : Option Writing :=
  let size := length % 2 ^ 32
  let stop := add64 w.offset size
  if stop ≤ w.offset then none
  else if gMaxBlocksPerOperation ≤ w.entries.length then none
  else if 2 ^ 31 ≤ size then none
  else some ⟨add64 w.i size,stop,if w.size < stop then stop else w.size,w.entries ++ [⟨w.offset,size,w.i⟩]⟩

structure Cut where
  prepended : Nat
  appended : Nat

def cutWrite (n offset : Nat) : Option Cut :=
  let offsetEnd := add64 offset n
  let offsetAligned := align64 offset
  if offsetEnd < offsetAligned then some ⟨n,0⟩
  else
    let prepended := if offset < offsetAligned then offsetAligned - offset else 0
    if gBlockSizeBytes ≤ prepended then none
    else
      let gap := sub64 (align64 offsetEnd) offsetEnd
      some ⟨prepended,if 0 < gap then sub64 gBlockSizeBytes gap else gap⟩

def addSome (w : Writing) (length : Nat) : Option Writing := if 0 < length then addToLog w length else some w

def addAligned (n : Nat) (cut : Cut) (w : Writing) : Option Writing :=
  if w.offset % gBlockSizeBytes ≠ 0 then none
  else
    let ioSize := sub64 (sub64 n cut.appended) w.i % 2 ^ 32
    addToLog w (if maxIoSize < ioSize then maxIoSize else ioSize)

def alignedDone (n : Nat) (cut : Cut) (w : Writing) : Bool := decide (sub64 n cut.appended ≤ w.i)

-- `mlfs_file_write` at an offset that is not behind the end. Every pass of the loop adds an entry or stops, so a
-- header's entries bound the passes.
def mlfsFileWriteTx (size n offset : Nat) : Option Writing :=
  (cutWrite n offset).bind fun cut =>
    (addSome ⟨0,offset,size,[]⟩ cut.prepended).bind fun w =>
      (loop (alignedDone n cut) (addAligned n cut) gMaxBlocksPerOperation w).bind fun w => addSome w cut.appended

-- One block of the log is written and becomes a patch of a block of the file; with `whole` the
-- block's earlier patches are dropped.
structure LogWrite where
  key : Nat
  block : Nat
  start : Nat
  size : Nat
  base : Nat
  whole : Bool
deriving DecidableEq, Repr

def blocksOf (e : FileEntry) : Nat := if e.length < gBlockSizeBytes then 1 else e.length / gBlockSizeBytes

def computeLogBlocks (entries : List FileEntry) : Nat := (entries.map blocksOf).sum

def persistLogFile (nrLogBlocks pos : Nat) (e : FileEntry) : Option (Nat × List LogWrite) :=
  if e.length < gBlockSizeBytes then
    if gBlockSizeBytes < e.offset % gBlockSizeBytes + e.length then none
    else some (pos + 1,[⟨e.offset / gBlockSizeBytes,pos,e.offset % gBlockSizeBytes,e.length,e.base,false⟩])
  else if e.offset % gBlockSizeBytes ≠ 0 ∨ e.length % gBlockSizeBytes ≠ 0 then none
  else
    let nrLogblocks := e.length / gBlockSizeBytes
    if nrLogBlocks < pos + nrLogblocks then none
    else some (pos + nrLogblocks,(List.range nrLogblocks).map fun k =>
      ⟨e.offset / gBlockSizeBytes + k,pos + k,0,gBlockSizeBytes,e.base + k * gBlockSizeBytes,true⟩)

def persistLogBlocks (nrLogBlocks : Nat) : Nat → List FileEntry → Option (Nat × List LogWrite)
  | pos,[] => some (pos,[])
  | pos,e :: rest =>
    (persistLogFile nrLogBlocks pos e).bind fun (pos,writes) =>
      (persistLogBlocks nrLogBlocks pos rest).map fun (pos,later) => (pos,writes ++ later)

-- `commit_log`: one block more than the data takes, and the header in block 0.
def commitLog (entries : List FileEntry) : Option (Nat × List LogWrite) :=
  persistLogBlocks (computeLogBlocks entries + 1) 1 entries

section Arithmetic

variable {x : Nat}

theorem align64_low (low : x ≤ 2 ^ 64 - gBlockSizeBytes) : align64 x = align x := by
  unfold align64 add64 align
  simp only [gBlockSizeBytes] at *
  omega

theorem align64_high (high : 2 ^ 64 - gBlockSizeBytes < x) (bound : x < 2 ^ 64) : align64 x = 0 := by
  unfold align64 add64
  simp only [gBlockSizeBytes] at *
  omega

theorem appended_eq (bound : x < 2 ^ 64) :
    (if 0 < sub64 (align64 x) x then sub64 gBlockSizeBytes (sub64 (align64 x) x) else sub64 (align64 x) x) =
      x % gBlockSizeBytes := by
  generalize rest : sub64 (align64 x) x = gap
  unfold align64 add64 sub64 gBlockSizeBytes at rest
  unfold sub64 gBlockSizeBytes
  by_cases some_ : 0 < gap
  · rw [if_pos some_]
    omega
  · rw [if_neg some_]
    omega

end Arithmetic

def Writing.add (w : Writing) (length : Nat) : Writing :=
  ⟨w.i + length,w.offset + length,max w.size (w.offset + length),w.entries ++ [⟨w.offset,length,w.i⟩]⟩

theorem addToLog_eq (w : Writing) (length : Nat) (positive : 0 < length) (small : length < 2 ^ 31)
    (fits : w.offset + length < 2 ^ 64) (counted : w.i + length < 2 ^ 64) :
    addToLog w length = if w.entries.length < gMaxBlocksPerOperation then some (w.add length) else none := by
  have size : length % 2 ^ 32 = length := Nat.mod_eq_of_lt (by omega)
  have stop : add64 w.offset length = w.offset + length := Nat.mod_eq_of_lt fits
  have next : add64 w.i length = w.i + length := Nat.mod_eq_of_lt counted
  unfold addToLog
  simp only [size,stop,next]
  rw [if_neg (by omega)]
  by_cases room : w.entries.length < gMaxBlocksPerOperation
  · have larger : (if w.size < w.offset + length then w.offset + length else w.size) = max w.size (w.offset + length) := by
      split <;> omega
    rw [if_neg (by omega),if_neg (by omega),if_pos room,larger]
    rfl
  · rw [if_pos (by omega),if_neg room]

theorem addToLog_some {w w' : Writing} {length : Nat} (inside : w.offset < 2 ^ 64) (done : addToLog w length = some w') :
    0 < length % 2 ^ 32 ∧ w.offset + length % 2 ^ 32 < 2 ^ 64 ∧ w'.i = add64 w.i (length % 2 ^ 32) ∧
      w'.offset = w.offset + length % 2 ^ 32 := by
  have small := Nat.mod_lt length (by decide : 0 < 2 ^ 32)
  unfold addToLog at done
  dsimp only at done
  generalize length % 2 ^ 32 = size at *
  have reach : add64 w.offset size = (w.offset + size) % 2 ^ 64 := rfl
  generalize add64 w.offset size = stop at *
  split at done
  · cases done
  split at done
  · cases done
  split at done
  · cases done
  cases done
  dsimp only
  omega

theorem add_all (sizes : List Nat) (w : Writing) (each : ∀ size ∈ sizes, 0 < size ∧ size < 2 ^ 31)
    (fits : w.offset + sizes.sum < 2 ^ 64) (counted : w.i + sizes.sum < 2 ^ 64) (room : w.entries.length ≤ gMaxBlocksPerOperation) :
    sizes.foldlM addToLog w =
      if w.entries.length + sizes.length ≤ gMaxBlocksPerOperation then
        some ⟨w.i + sizes.sum,w.offset + sizes.sum,if 0 < sizes.sum then max w.size (w.offset + sizes.sum) else w.size,
          w.entries ++ alignedEntries w.offset w.i sizes⟩
      else none := by
  induction sizes generalizing w with
  | nil => simp [alignedEntries,room]
  | cons size rest ih =>
    obtain ⟨positive,small⟩ := each size mem_cons_self
    rw [sum_cons] at fits counted
    rw [foldlM_cons,addToLog_eq w size positive small (by omega) (by omega)]
    by_cases free : w.entries.length < gMaxBlocksPerOperation
    · rw [if_pos free]
      have later := ih (w.add size) (fun size member => each size (mem_cons_of_mem _ member))
        (by simp only [Writing.add]; omega) (by simp only [Writing.add]; omega)
        (by simp only [Writing.add,length_append,length_singleton]; omega)
      change rest.foldlM addToLog (w.add size) = _
      rw [later,sum_cons,if_pos (show 0 < size + rest.sum by omega)]
      simp only [Writing.add,length_append,length_cons,length_nil,alignedEntries,append_assoc,
        cons_append,nil_append,zero_add]
      have last : (if 0 < rest.sum then max (max w.size (w.offset + size)) (w.offset + size + rest.sum)
          else max w.size (w.offset + size)) = max w.size (w.offset + (size + rest.sum)) := by split <;> omega
      rw [last,add_assoc,add_assoc,add_assoc,add_comm 1]
    · rw [if_neg free,if_neg (by rw [length_cons]; omega)]
      rfl

variable {limit fuel left stop : Nat}

theorem pieces_sum (positive : 0 < limit) (fuel left : Nat) (enough : left ≤ fuel) :
    (pieces limit fuel left).sum = left := by
  induction fuel generalizing left with
  | zero => exact (Nat.le_zero.mp enough).symm
  | succ fuel ih =>
    unfold pieces
    split
    · rename_i none
      exact none.symm
    · rw [sum_cons,ih (left - limit) (by omega)]
      omega

theorem pieces_each (positive : 0 < limit) (whole : limit % gBlockSizeBytes = 0) (fuel left : Nat)
    (aligned : left % gBlockSizeBytes = 0) :
    ∀ size ∈ pieces limit fuel left, 0 < size ∧ size ≤ limit ∧ size % gBlockSizeBytes = 0 := by
  induction fuel generalizing left with
  | zero => exact fun _ member => absurd member not_mem_nil
  | succ fuel ih =>
    intro size member
    unfold pieces at member
    split at member
    · cases member
    · rename_i some_
      rcases mem_cons.mp member with rfl | later
      · refine ⟨by omega,min_le_right ..,?_⟩
        rcases Nat.le_total left limit with less | more
        · rw [min_eq_left less]
          exact aligned
        · rw [min_eq_right more]
          exact whole
      · refine ih (left - limit) ?_ size later
        simp only [gBlockSizeBytes] at *
        omega

theorem pieces_fuel (positive : 0 < limit) (enough : left ≤ fuel) :
    pieces limit fuel left = pieces limit left left := by
  induction left using Nat.strongRecOn generalizing fuel with
  | ind left ih =>
    cases left with
    | zero => cases fuel <;> rfl
    | succ left =>
      cases fuel with
      | zero => cases enough
      | succ fuel =>
        have more := ih (left + 1 - limit) (by omega) (show left + 1 - limit ≤ fuel by omega)
        have least := ih (left + 1 - limit) (by omega) (show left + 1 - limit ≤ left by omega)
        rw [pieces,pieces,more,least]

theorem pieces_cons (positive : 0 < limit) (some_ : left ≠ 0) :
    pieces limit left left = min left limit :: pieces limit (left - limit) (left - limit) := by
  cases left with
  | zero => exact absurd rfl some_
  | succ left =>
    rw [pieces,if_neg (Nat.succ_ne_zero left),pieces_fuel positive (by omega)]

def writeSizes (offset n : Nat) : List Nat :=
  if offset + n < align offset then if 0 < n then [n] else []
  else
    let prepended := align offset - offset
    let appended := (offset + n) % gBlockSizeBytes
    let aligned := n - prepended - appended
    (if 0 < prepended then [prepended] else []) ++ pieces maxIoSize aligned aligned ++ if 0 < appended then [appended] else []

theorem alignedEntries_append (offset base : Nat) (left right : List Nat) :
    alignedEntries offset base (left ++ right) =
      alignedEntries offset base left ++ alignedEntries (offset + left.sum) (base + left.sum) right := by
  induction left generalizing offset base with
  | nil => rfl
  | cons size rest ih => simp only [cons_append,alignedEntries,ih,sum_cons,add_assoc]

theorem optional_sum (k : Nat) : (if 0 < k then [k] else []).sum = k := by
  split
  · rfl
  · exact (Nat.eq_zero_of_not_pos ‹_›).symm

theorem optional_entries (offset base k : Nat) :
    alignedEntries offset base (if 0 < k then [k] else []) = if 0 < k then [⟨offset,k,base⟩] else [] := by
  split <;> rfl

theorem align_bounds (offset : Nat) :
    offset ≤ align offset ∧ align offset < offset + gBlockSizeBytes ∧ align offset % gBlockSizeBytes = 0 := by
  unfold align gBlockSizeBytes
  omega

theorem ends_fit {offset n : Nat} (reaches : align offset ≤ offset + n) :
    (align offset - offset) + (offset + n) % gBlockSizeBytes ≤ n := by
  unfold align at *
  simp only [gBlockSizeBytes] at *
  omega

theorem middle_aligned (offset n : Nat) :
    (n - (align offset - offset) - (offset + n) % gBlockSizeBytes) % gBlockSizeBytes = 0 := by
  unfold align at *
  simp only [gBlockSizeBytes] at *
  omega

theorem writeSizes_sum (offset n : Nat) : (writeSizes offset n).sum = n := by
  unfold writeSizes
  split
  · exact optional_sum n
  · rename_i reaches
    have ends := ends_fit (Nat.le_of_not_lt reaches)
    dsimp only
    rw [sum_append,sum_append,optional_sum,optional_sum,pieces_sum (by decide) _ _ (le_refl _)]
    omega

theorem writeEntries_eq (offset n : Nat) : writeEntries offset n = alignedEntries offset 0 (writeSizes offset n) := by
  unfold writeEntries writeSizes
  split
  · exact (optional_entries offset 0 n).symm
  · rename_i reaches
    have ends := ends_fit (Nat.le_of_not_lt reaches)
    dsimp only
    rw [alignedEntries_append,alignedEntries_append,optional_entries,optional_entries,sum_append,optional_sum,
      pieces_sum (by decide) _ _ (le_refl _),zero_add]
    congr <;> omega

section Aligned
variable {n : Nat} {cut : Cut} {w w' : Writing}

theorem passes_reach (inside : w.offset < 2 ^ 64)
    (done : loop (alignedDone n cut) (addAligned n cut) fuel w = some w') :
    sub64 n cut.appended ≤ w.i + fuel * maxIoSize := by
  induction fuel generalizing w with
  | zero =>
    unfold loop at done
    split at done
    · rename_i ends
      exact le_trans (of_decide_eq_true ends) (Nat.le_add_right ..)
    · cases done
  | succ fuel ih =>
    unfold loop at done
    split at done
    · rename_i ends
      exact le_trans (of_decide_eq_true ends) (Nat.le_add_right ..)
    · obtain ⟨next,stepped,later⟩ := bind_eq_some_iff.mp done
      unfold addAligned at stepped
      split at stepped
      · cases stepped
      · obtain ⟨_,fits,taken,reach⟩ := addToLog_some inside stepped
        have least : next.i ≤ _ := le_trans (le_of_eq taken) (Nat.mod_le ..)
        have rest := ih (by omega) later
        have limited : (if maxIoSize < sub64 (sub64 n cut.appended) w.i % 2 ^ 32 then maxIoSize
            else sub64 (sub64 n cut.appended) w.i % 2 ^ 32) % 2 ^ 32 ≤ maxIoSize :=
          le_trans (Nat.mod_le ..) (by split <;> omega)
        rw [Nat.succ_mul]
        omega

theorem addAligned_eq (total : sub64 n cut.appended = w.i + left) (small : left < 2 ^ 32)
    (place : w.offset % gBlockSizeBytes = 0) : addAligned n cut w = addToLog w (min left maxIoSize) := by
  have rest : sub64 (w.i + left) w.i % 2 ^ 32 = left := by
    unfold sub64
    omega
  have limited : (if maxIoSize < left then maxIoSize else left) = min left maxIoSize := by split <;> omega
  unfold addAligned
  rw [if_neg (by simpa using place),total,rest]
  dsimp only
  rw [limited]

theorem alignedDone_eq (total : sub64 n cut.appended = w.i + left) : alignedDone n cut w = decide (left = 0) := by
  unfold alignedDone
  rw [total]
  exact decide_eq_decide.mpr (by omega)

theorem passes_eq (total : sub64 n cut.appended = w.i + left) (small : left < 2 ^ 32)
    (counted : w.i + left < 2 ^ 64) (fits : w.offset + left < 2 ^ 64) (place : left ≠ 0 → w.offset % gBlockSizeBytes = 0)
    (aligned : left % gBlockSizeBytes = 0) (enough : gMaxBlocksPerOperation ≤ fuel + w.entries.length) :
    loop (alignedDone n cut) (addAligned n cut) fuel w = (pieces maxIoSize left left).foldlM addToLog w := by
  have limit : maxIoSize = 2 ^ 27 := rfl
  induction fuel generalizing w left with
  | zero =>
    unfold loop
    rw [alignedDone_eq total]
    by_cases none_ : left = 0
    · subst none_
      rfl
    · have added := addToLog_eq w (min left maxIoSize) (by omega) (by omega) (by omega) (by omega)
      rw [if_neg (by omega)] at added
      rw [if_neg (by simpa using none_),pieces_cons (by decide) none_,foldlM_cons,added]
      rfl
  | succ fuel ih =>
    unfold loop
    rw [alignedDone_eq total]
    by_cases none_ : left = 0
    · subst none_
      rfl
    · have added := addToLog_eq w (min left maxIoSize) (by omega) (by omega) (by omega) (by omega)
      rw [if_neg (by simpa using none_),pieces_cons (by decide) none_,foldlM_cons,addAligned_eq total small (place none_)]
      by_cases room : w.entries.length < gMaxBlocksPerOperation
      · rw [if_pos room] at added
        have block : gBlockSizeBytes = 4096 := rfl
        have on : left - maxIoSize ≠ 0 → (w.offset + min left maxIoSize) % gBlockSizeBytes = 0 := by
          intro _
          have here := place none_
          rw [block] at here aligned ⊢
          omega
        have rest : (left - maxIoSize) % gBlockSizeBytes = 0 := by
          rw [block] at aligned ⊢
          omega
        have next : (w.add (min left maxIoSize)).entries.length = w.entries.length + 1 := length_append
        have later : loop (alignedDone n cut) (addAligned n cut) fuel (w.add (min left maxIoSize)) =
            (pieces maxIoSize (left - maxIoSize) (left - maxIoSize)).foldlM addToLog (w.add (min left maxIoSize)) := by
          refine ih ?_ (by omega) ?_ ?_ on rest (by omega) <;> simp only [Writing.add] <;> omega
        rw [added,bind_some,bind_eq_bind,bind_some,later]
      · rw [if_neg room] at added
        rw [added,bind_none,bind_eq_bind,bind_none]

theorem aligned_eq (cut : Cut) (total : sub64 n cut.appended = w.i + left) (counted : w.i + left < 2 ^ 64)
    (fits : w.offset + left < 2 ^ 64) (place : left ≠ 0 → w.offset % gBlockSizeBytes = 0)
    (aligned : left % gBlockSizeBytes = 0) (room : w.entries.length ≤ gMaxBlocksPerOperation) :
    loop (alignedDone n cut) (addAligned n cut) gMaxBlocksPerOperation w = (pieces maxIoSize left left).foldlM addToLog w := by
  by_cases small : left < 2 ^ 32
  · exact passes_eq total small counted fits place aligned (Nat.le_add_right ..)
  · have limit : maxIoSize = 2 ^ 27 := rfl
    have most : gMaxBlocksPerOperation = 4 := rfl
    have none_ : loop (alignedDone n cut) (addAligned n cut) gMaxBlocksPerOperation w = none := by
      refine Option.eq_none_iff_forall_ne_some.mpr fun w' done => ?_
      have reach := passes_reach (by omega) done
      rw [most,limit] at reach
      omega
    have positive : 0 < maxIoSize := by decide
    have each := pieces_each positive (by decide) left left aligned
    have all := pieces_sum positive left left (le_refl left)
    have count := Transactions.pieces_length positive left left (le_refl left)
    rw [none_,add_all _ w (fun size member => ?_) (by rw [all]; exact fits) (by rw [all]; exact counted) room,if_neg]
    · rw [count,limit,most]
      omega
    · obtain ⟨positive,bounded,_⟩ := each size member
      omega

end Aligned

section Write
variable {n offset : Nat}

variable {stop : Nat}

theorem cutWrite_short (reach : add64 offset n = stop) (short : stop < align64 offset) :
    cutWrite n offset = some ⟨n,0⟩ := by
  unfold cutWrite
  rw [reach]
  exact if_pos short

theorem cutWrite_long (n offset : Nat) (reaches : align64 offset ≤ add64 offset n) (near : align64 offset - offset < gBlockSizeBytes) :
    cutWrite n offset = some ⟨align64 offset - offset,add64 offset n % gBlockSizeBytes⟩ := by
  unfold cutWrite
  dsimp only
  rw [if_neg (not_lt.mpr reaches),appended_eq (x:=add64 offset n) (Nat.mod_lt _ (by decide))]
  have before : (if offset < align64 offset then align64 offset - offset else 0) = align64 offset - offset := by
    split <;> omega
  rw [before,if_neg (not_le.mpr near)]

theorem fileWriteTx_cut {cut : Cut} (size : Nat) (found : cutWrite n offset = some cut) :
    mlfsFileWriteTx size n offset = (addSome ⟨0,offset,size,[]⟩ cut.prepended).bind fun w =>
      (loop (alignedDone n cut) (addAligned n cut) gMaxBlocksPerOperation w).bind fun w => addSome w cut.appended := by
  unfold mlfsFileWriteTx
  rw [found,bind_some]

theorem pass_stops {cut : Cut} {w : Writing} (more : w.i < sub64 n cut.appended) (stops : addAligned n cut w = none) :
    loop (alignedDone n cut) (addAligned n cut) gMaxBlocksPerOperation w = none := by
  have open_ : ¬ alignedDone n cut w = true := fun ends => not_le.mpr more (of_decide_eq_true ends)
  have four : gMaxBlocksPerOperation = 3 + 1 := rfl
  rw [four,loop,if_neg open_,stops,bind_none]

theorem last_block_stops (size : Nat) (inside : offset < 2 ^ 64) (length : n < 2 ^ 64)
    (high : 2 ^ 64 - gBlockSizeBytes < offset) : mlfsFileWriteTx size n offset = none := by
  have zero := align64_high high inside
  have cut := cutWrite_long n offset (by rw [zero]; exact Nat.zero_le _) (by rw [zero,Nat.zero_sub]; decide)
  have odd : offset % gBlockSizeBytes ≠ 0 := by
    simp only [gBlockSizeBytes] at *
    omega
  have more : 0 < sub64 n (add64 offset n % gBlockSizeBytes) := by
    unfold sub64 add64
    simp only [gBlockSizeBytes] at *
    omega
  rw [zero,Nat.zero_sub] at cut
  have stops : addAligned n ⟨0,add64 offset n % gBlockSizeBytes⟩ ⟨0,offset,size,[]⟩ = none := if_pos odd
  rw [fileWriteTx_cut size cut,addSome,if_neg (lt_irrefl 0),bind_some,pass_stops more stops,bind_none]

theorem wrapped_end_stops (size : Nat) (low : offset ≤ 2 ^ 64 - gBlockSizeBytes) (length : n < 2 ^ 64)
    (wraps : 2 ^ 64 ≤ offset + n) : mlfsFileWriteTx size n offset = none := by
  have block : gBlockSizeBytes = 4096 := rfl
  have above : offset ≤ align64 offset := by
    rw [align64_low low]
    unfold align
    rw [block]
    omega
  have short : add64 offset n < align64 offset := by
    have stop : add64 offset n = offset + n - 2 ^ 64 := by
      unfold add64
      omega
    omega
  rw [fileWriteTx_cut size (cutWrite_short rfl short),addSome,if_pos (by dsimp only; omega)]
  cases added : addToLog ⟨0,offset,size,[]⟩ n with
  | none => rfl
  | some w =>
    obtain ⟨positive,fits,taken,place⟩ := addToLog_some (by dsimp only; omega) added
    dsimp only at positive fits taken place
    have total : sub64 n 0 = n := by
      unfold sub64
      omega
    have done : w.i = n % 2 ^ 32 := by
      rw [taken]
      unfold add64
      omega
    -- The rest is a multiple of 4 GB, so the next entry has no bytes.
    have nothing : sub64 n w.i % 2 ^ 32 = 0 := by
      rw [done]
      unfold sub64
      omega
    have stops : addAligned n ⟨n,0⟩ w = none := by
      unfold addAligned
      split
      · rfl
      · dsimp only
        rw [total,nothing,if_neg (Nat.not_lt_zero _)]
        refine if_pos ?_
        unfold add64
        omega
    rw [bind_some,pass_stops (by dsimp only; omega) stops,bind_none]

theorem addSome_eq (w : Writing) (k : Nat) : addSome w k = (if 0 < k then [k] else []).foldlM addToLog w := by
  unfold addSome
  split
  · rw [foldlM_cons]
    cases addToLog w k <;> rfl
  · rfl

theorem first_part (offset size k : Nat) (fits : offset + k < 2 ^ 64) (short : k < 2 ^ 31) :
    ∃ w, addSome ⟨0,offset,size,[]⟩ k = some w ∧ w.i = k ∧ w.offset = offset + k ∧ w.entries.length ≤ 1 := by
  unfold addSome
  by_cases some_ : 0 < k
  · rw [if_pos some_,addToLog_eq _ k some_ short fits (by dsimp only; omega)]
    exact ⟨_,if_pos (Nat.zero_lt_succ 3),zero_add k,rfl,le_refl 1⟩
  · rw [if_neg some_]
    exact ⟨_,rfl,by dsimp only; omega,by dsimp only; omega,Nat.zero_le 1⟩

theorem stages_eq {cut : Cut} (size left : Nat) (found : cutWrite n offset = some cut)
    (whole : cut.prepended + left + cut.appended = n) (fits : offset + n < 2 ^ 64) (short : cut.prepended < 2 ^ 31)
    (aligned : left % gBlockSizeBytes = 0) (place : left ≠ 0 → (offset + cut.prepended) % gBlockSizeBytes = 0) :
    mlfsFileWriteTx size n offset = ((if 0 < cut.prepended then [cut.prepended] else []) ++ pieces maxIoSize left left ++
      if 0 < cut.appended then [cut.appended] else []).foldlM addToLog ⟨0,offset,size,[]⟩ := by
  obtain ⟨w,first,taken,reach,few⟩ := first_part offset size cut.prepended (by omega) short
  have total : sub64 n cut.appended = w.i + left := by
    unfold sub64
    omega
  have room : w.entries.length ≤ gMaxBlocksPerOperation := le_trans few (by decide)
  have middle := aligned_eq cut total (by omega) (by omega) (fun some_ => by rw [reach]; exact place some_) aligned room
  have last : (fun w => addSome w cut.appended) =
      fun w => (if 0 < cut.appended then [cut.appended] else []).foldlM addToLog w := funext fun w => addSome_eq w _
  rw [fileWriteTx_cut size found,last,foldlM_append,foldlM_append,←addSome_eq,first,bind_some,middle,
    bind_eq_bind,bind_some]

theorem fileWriteTx_sizes (size : Nat) (low : offset ≤ 2 ^ 64 - gBlockSizeBytes) (fits : offset + n < 2 ^ 64) :
    mlfsFileWriteTx size n offset = (writeSizes offset n).foldlM addToLog ⟨0,offset,size,[]⟩ := by
  have block : gBlockSizeBytes = 4096 := rfl
  have reach : add64 offset n = offset + n := Nat.mod_eq_of_lt fits
  have up := align64_low low
  obtain ⟨above,near,multiple⟩ := align_bounds offset
  unfold writeSizes
  by_cases short : offset + n < align offset
  · have all := stages_eq size 0 (cutWrite_short reach (by omega)) (by dsimp only; omega) fits (by dsimp only; omega)
      (Nat.zero_mod _) (fun some_ => absurd rfl some_)
    rw [if_pos short,all]
    exact congrArg (List.foldlM addToLog _) (by rw [pieces,append_nil,if_neg (lt_irrefl 0),append_nil])
  · have ends := ends_fit (Nat.le_of_not_lt short)
    have cut := cutWrite_long n offset (by omega) (by omega)
    rw [up,reach] at cut
    rw [if_neg short]
    have place : (offset + (align offset - offset)) % gBlockSizeBytes = 0 := by
      rw [Nat.add_sub_cancel' above]
      exact multiple
    exact stages_eq size _ cut (by dsimp only; omega) fits (by dsimp only; omega) (middle_aligned offset n) fun _ => place

end Write

theorem optional_each {k bound : Nat} (small : k < bound) : ∀ size ∈ if 0 < k then [k] else [], 0 < size ∧ size < bound := by
  intro size member
  split at member
  · rw [mem_singleton.mp member]
    exact ⟨by assumption,small⟩
  · cases member

theorem writeSizes_each (offset n : Nat) : ∀ size ∈ writeSizes offset n, 0 < size ∧ size < 2 ^ 31 := by
  have block : gBlockSizeBytes = 4096 := rfl
  have limit : maxIoSize = 2 ^ 27 := rfl
  obtain ⟨above,near,multiple⟩ := align_bounds offset
  unfold writeSizes
  split
  · exact optional_each (by omega)
  · rename_i reaches
    have ends := ends_fit (Nat.le_of_not_lt reaches)
    have rest : (offset + n) % gBlockSizeBytes < gBlockSizeBytes := Nat.mod_lt _ (by decide)
    intro size member
    rcases mem_append.mp member with before | behind
    · rcases mem_append.mp before with first | middle
      · exact optional_each (by omega) size first
      · obtain ⟨positive,most,_⟩ := pieces_each (by decide) (by decide) _ _ (middle_aligned offset n) size middle
        exact ⟨positive,by omega⟩
    · exact optional_each (by omega) size behind

theorem fileWriteTx_eq (size : Nat) {n offset : Nat} (inside : offset < 2 ^ 64) (length : n < 2 ^ 64) :
    mlfsFileWriteTx size n offset =
      if gMaxBlocksPerOperation < (writeEntries offset n).length ∨ (0 < n ∧ 2 ^ 64 ≤ offset + n) ∨ 2 ^ 64 - gBlockSizeBytes < offset then
        none
      else some ⟨n,offset + n,if 0 < n ∧ size < offset + n then offset + n else size,writeEntries offset n⟩ := by
  by_cases high : 2 ^ 64 - gBlockSizeBytes < offset
  · rw [if_pos (.inr (.inr high)),last_block_stops size inside length high]
  · by_cases wraps : 2 ^ 64 ≤ offset + n
    · rw [if_pos (.inr (.inl ⟨by omega,wraps⟩)),wrapped_end_stops size (Nat.le_of_not_lt high) length wraps]
    · have all := writeSizes_sum offset n
      rw [fileWriteTx_sizes size (Nat.le_of_not_lt high) (Nat.lt_of_not_le wraps),
        add_all _ _ (writeSizes_each offset n) (by rw [all]; exact Nat.lt_of_not_le wraps) (by rw [all]; dsimp only; omega) (Nat.zero_le _),
        all,writeEntries_eq,Transactions.alignedEntries_length]
      simp only [length_nil,nil_append,zero_add]
      have larger : (if 0 < n then max size (offset + n) else size) = if 0 < n ∧ size < offset + n then offset + n else size := by
        split <;> split <;> omega
      rw [larger]
      by_cases room : (writeSizes offset n).length ≤ gMaxBlocksPerOperation
      · have open_ : ¬ (gMaxBlocksPerOperation < (writeSizes offset n).length ∨ (0 < n ∧ 2 ^ 64 ≤ offset + n) ∨
            2 ^ 64 - gBlockSizeBytes < offset) := by omega
        rw [if_pos room,if_neg open_]
      · rw [if_neg room,if_pos (.inl (Nat.lt_of_not_le room))]

def InBlocks (e : FileEntry) : Prop :=
  e.length < gBlockSizeBytes ∧ e.offset % gBlockSizeBytes + e.length ≤ gBlockSizeBytes ∨
    e.offset % gBlockSizeBytes = 0 ∧ e.length % gBlockSizeBytes = 0

theorem alignedEntries_whole {offset : Nat} (base : Nat) {sizes : List Nat} (aligned : offset % gBlockSizeBytes = 0)
    (whole : ∀ size ∈ sizes, size % gBlockSizeBytes = 0) :
    ∀ e ∈ alignedEntries offset base sizes, e.offset % gBlockSizeBytes = 0 ∧ e.length % gBlockSizeBytes = 0 := by
  induction sizes generalizing offset base with
  | nil => exact fun _ member => absurd member not_mem_nil
  | cons size rest ih =>
    intro e member
    have blocks := whole size mem_cons_self
    rcases mem_cons.mp member with rfl | later
    · exact ⟨aligned,blocks⟩
    · refine ih (base + size) ?_ (fun size member => whole size (mem_cons_of_mem _ member)) e later
      simp only [gBlockSizeBytes] at *
      omega

theorem mem_optional {k : Nat} {e first : FileEntry} (member : e ∈ if 0 < k then [first] else []) : 0 < k ∧ e = first := by
  split at member
  · exact ⟨by assumption,mem_singleton.mp member⟩
  · cases member

theorem writeEntries_inBlocks (offset n : Nat) : ∀ e ∈ writeEntries offset n, InBlocks e := by
  have block : gBlockSizeBytes = 4096 := rfl
  obtain ⟨above,near,multiple⟩ := align_bounds offset
  intro e member
  unfold writeEntries at member
  split at member
  · obtain ⟨_,rfl⟩ := mem_optional member
    refine Or.inl ⟨by dsimp only; omega,?_⟩
    dsimp only
    rw [block] at *
    omega
  · rename_i reaches
    have ends := ends_fit (Nat.le_of_not_lt reaches)
    have rest : (offset + n) % gBlockSizeBytes < gBlockSizeBytes := Nat.mod_lt _ (by decide)
    rcases mem_append.mp member with before | behind
    · rcases mem_append.mp before with first | middle
      · obtain ⟨_,rfl⟩ := mem_optional first
        refine Or.inl ⟨by dsimp only; omega,?_⟩
        dsimp only
        rw [block] at *
        omega
      · rw [Nat.add_sub_cancel' above] at middle
        exact Or.inr (alignedEntries_whole _ multiple
          (fun size member => (pieces_each (by decide) (by decide) _ _ (middle_aligned offset n) size member).2.2) e middle)
    · obtain ⟨_,rfl⟩ := mem_optional behind
      refine Or.inl ⟨rest,?_⟩
      dsimp only
      rw [block] at *
      omega

theorem alignedEntries_tiles (offset base : Nat) (sizes : List Nat) :
    Tiles FileEntry.offset FileEntry.length offset (alignedEntries offset base sizes) (offset + sizes.sum) := by
  induction sizes generalizing offset base with
  | nil => rfl
  | cons size rest ih =>
    refine ⟨rfl,?_⟩
    rw [sum_cons,←add_assoc]
    exact ih (offset + size) (base + size)

theorem alignedEntries_base (offset base : Nat) (sizes : List Nat) :
    ∀ e ∈ alignedEntries offset base sizes, offset + e.base = base + e.offset := by
  induction sizes generalizing offset base with
  | nil => exact fun _ member => absurd member not_mem_nil
  | cons size rest ih =>
    intro e member
    rcases mem_cons.mp member with rfl | later
    · exact add_comm ..
    · have next := ih (offset + size) (base + size) e later
      omega

def LogWrite.first (l : LogWrite) : Nat := l.key * gBlockSizeBytes + l.start

structure Stored (pos count start stop base : Nat) (writes : List LogWrite) : Prop where
  tiles : Tiles LogWrite.first LogWrite.size start writes stop
  blocks : writes.map LogWrite.block = List.range' pos count
  inside : ∀ l ∈ writes, l.start + l.size ≤ gBlockSizeBytes
  buffer : ∀ l ∈ writes, start + l.base = base + l.first

theorem Stored.append {pos count count' start middle base base' : Nat} {writes later : List LogWrite}
    (first : Stored pos count start middle base writes) (second : Stored (pos + count) count' middle stop base' later)
    (next : start + base' = base + middle) : Stored pos (count + count') start stop base (writes ++ later) := by
  refine ⟨first.tiles.append second.tiles,?_,fun l member => ?_,fun l member => ?_⟩
  · rw [map_append,first.blocks,second.blocks,range'_append_1]
  · exact (mem_append.mp member).elim (first.inside l) (second.inside l)
  · rcases mem_append.mp member with here | there
    · exact first.buffer l here
    · have known := second.buffer l there
      omega

theorem range_tiles (key pos base count : Nat) :
    Tiles LogWrite.first LogWrite.size (key * gBlockSizeBytes)
      ((List.range count).map fun k => ⟨key + k,pos + k,0,gBlockSizeBytes,base + k * gBlockSizeBytes,true⟩)
      (key * gBlockSizeBytes + count * gBlockSizeBytes) := by
  induction count with
  | zero =>
    rw [zero_mul]
    exact (add_zero _).symm
  | succ count ih =>
    rw [range_succ,map_append]
    refine ih.append (tiles_single ?_ ?_)
    · unfold LogWrite.first
      dsimp only
      rw [add_mul,add_zero]
    · dsimp only
      rw [Nat.succ_mul]
      omega

theorem persistLogFile_stored {nrLogBlocks pos : Nat} {e : FileEntry} (shape : InBlocks e) (room : pos + blocksOf e ≤ nrLogBlocks) :
    ∃ writes, persistLogFile nrLogBlocks pos e = some (pos + blocksOf e,writes) ∧
      Stored pos (blocksOf e) e.offset (e.offset + e.length) e.base writes := by
  have block : gBlockSizeBytes = 4096 := rfl
  unfold blocksOf at *
  unfold persistLogFile
  by_cases small : e.length < gBlockSizeBytes
  · have fits : ¬ gBlockSizeBytes < e.offset % gBlockSizeBytes + e.length := by
      rcases shape with ⟨_,fits⟩ | ⟨aligned,_⟩ <;> omega
    have place : e.offset / gBlockSizeBytes * gBlockSizeBytes + e.offset % gBlockSizeBytes = e.offset := by
      rw [block]
      omega
    rw [if_pos small,if_neg fits,if_pos small]
    refine ⟨_,rfl,tiles_single place rfl,rfl,fun l member => ?_,fun l member => ?_⟩
    · rw [mem_singleton.mp member]
      exact Nat.le_of_not_lt fits
    · rw [mem_singleton.mp member,LogWrite.first,place]
      exact add_comm ..
  · have aligned : e.offset % gBlockSizeBytes = 0 ∧ e.length % gBlockSizeBytes = 0 :=
      shape.resolve_left fun part => small part.1
    have start : e.offset / gBlockSizeBytes * gBlockSizeBytes = e.offset := Nat.div_mul_cancel (Nat.dvd_of_mod_eq_zero aligned.1)
    have size : e.length / gBlockSizeBytes * gBlockSizeBytes = e.length := Nat.div_mul_cancel (Nat.dvd_of_mod_eq_zero aligned.2)
    rw [if_neg small] at room
    rw [if_neg small,if_neg (by omega),if_neg small]
    dsimp only
    rw [if_neg (by omega)]
    refine ⟨_,rfl,?_,?_,fun l member => ?_,fun l member => ?_⟩
    · have tiles := range_tiles (e.offset / gBlockSizeBytes) pos e.base (e.length / gBlockSizeBytes)
      rwa [start,size] at tiles
    · rw [List.map_map,List.range'_eq_map_range]
      rfl
    · obtain ⟨k,_,rfl⟩ := mem_map.mp member
      exact le_of_eq (zero_add _)
    · obtain ⟨k,_,rfl⟩ := mem_map.mp member
      unfold LogWrite.first
      dsimp only
      rw [add_mul,start]
      omega

theorem persistLogBlocks_stored {nrLogBlocks start : Nat} (pos base : Nat) {entries : List FileEntry}
    (shapes : ∀ e ∈ entries, InBlocks e) (room : pos + computeLogBlocks entries ≤ nrLogBlocks)
    (tiles : Tiles FileEntry.offset FileEntry.length start entries stop)
    (buffer : ∀ e ∈ entries, start + e.base = base + e.offset) :
    ∃ writes, persistLogBlocks nrLogBlocks pos entries = some (pos + computeLogBlocks entries,writes) ∧
      Stored pos (computeLogBlocks entries) start stop base writes := by
  induction entries generalizing pos start base with
  | nil => exact ⟨[],rfl,tiles,rfl,fun _ member => absurd member not_mem_nil,fun _ member => absurd member not_mem_nil⟩
  | cons e rest ih =>
    obtain ⟨rfl,later⟩ := tiles
    have sum : computeLogBlocks (e :: rest) = blocksOf e + computeLogBlocks rest := sum_cons
    have same : e.base = base := by
      have known := buffer e mem_cons_self
      omega
    obtain ⟨writes,first,stored⟩ := persistLogFile_stored (shapes e mem_cons_self) (show pos + blocksOf e ≤ nrLogBlocks by omega)
    obtain ⟨more,behind,stored'⟩ := ih (pos + blocksOf e) (base + e.length)
      (fun e member => shapes e (mem_cons_of_mem _ member)) (by omega) later fun e' member => by
        have known := buffer e' (mem_cons_of_mem _ member)
        omega
    rw [same] at stored
    rw [sum,←add_assoc]
    refine ⟨writes ++ more,?_,stored.append stored' (by omega)⟩
    rw [persistLogBlocks,first,bind_some]
    dsimp only
    rw [behind]
    rfl

theorem writeEntries_tiles (offset n : Nat) :
    Tiles FileEntry.offset FileEntry.length offset (writeEntries offset n) (offset + n) := by
  have tiles := alignedEntries_tiles offset 0 (writeSizes offset n)
  rwa [←writeEntries_eq,writeSizes_sum] at tiles

theorem writeEntries_positive (offset n : Nat) : ∀ e ∈ writeEntries offset n, 0 < e.length := by
  have lengths : ∀ sizes offset base, (alignedEntries offset base sizes).map FileEntry.length = sizes := by
    intro sizes
    induction sizes with
    | nil => exact fun _ _ => rfl
    | cons size rest ih => exact fun _ _ => congrArg (size :: ·) (ih _ _)
  rw [writeEntries_eq]
  intro e member
  have listed := mem_map_of_mem (f:=FileEntry.length) member
  rw [lengths] at listed
  exact (writeSizes_each offset n _ listed).1

theorem writeEntries_base (offset n : Nat) : ∀ e ∈ writeEntries offset n, offset + e.base = e.offset := by
  rw [writeEntries_eq]
  intro e member
  exact (alignedEntries_base offset 0 _ e member).trans (zero_add _)

theorem write_stored {size n offset : Nat} {w : Writing} (inside : offset < 2 ^ 64) (length : n < 2 ^ 64)
    (done : mlfsFileWriteTx size n offset = some w) :
    ∃ writes, commitLog w.entries = some (computeLogBlocks w.entries + 1,writes) ∧
      Stored 1 (computeLogBlocks w.entries) offset (offset + n) 0 writes := by
  rw [fileWriteTx_eq size inside length] at done
  split at done
  · cases done
  · cases done
    dsimp only
    obtain ⟨writes,persisted,stored⟩ := persistLogBlocks_stored 1 0 (writeEntries_inBlocks offset n)
      (le_of_eq (add_comm 1 (computeLogBlocks (writeEntries offset n)))) (writeEntries_tiles offset n) fun e member => by
        rw [writeEntries_base offset n e member,zero_add]
    rw [add_comm 1] at persisted
    exact ⟨writes,persisted,stored⟩

structure Logged (offset n : Nat) (entries : List FileEntry) : Prop where
  covered : ∀ x, (∃ e ∈ entries, e.offset ≤ x ∧ x < e.offset + e.length) ↔ offset ≤ x ∧ x < offset + n
  ordered : entries.Pairwise fun a b => a.offset + a.length ≤ b.offset
  buffer : ∀ e ∈ entries, offset + e.base = e.offset
  inBlocks : ∀ e ∈ entries, InBlocks e
  few : entries.length ≤ 3
  persisted : commitLog entries ≠ none

theorem write_logged_iff (size n offset : Nat) (bound : size < 2 ^ 64) (inside : offset ≤ size) (some_ : 1 ≤ n)
    (limited : n ≤ ioSizeLimit) :
    (∃ w, mlfsFileWriteTx size n offset = some w ∧ Logged offset n w.entries) ↔
      offset ≤ 2 ^ 64 - gBlockSizeBytes ∧ offset + n < 2 ^ 64 := by
  have limit : ioSizeLimit = 2 ^ 24 := rfl
  have low : offset < 2 ^ 64 := by omega
  have length : n < 2 ^ 64 := by omega
  have written := fileWriteTx_eq size low length
  constructor
  · rintro ⟨w,done,_⟩
    rw [written] at done
    split at done
    · cases done
    · omega
  · rintro ⟨aligned,fits⟩
    have few : (writeEntries offset n).length ≤ 3 := by
      rw [Transactions.writeEntries_length]
      exact Transactions.parts_limited limited
    have room : gMaxBlocksPerOperation = 4 := rfl
    rw [if_neg (by omega)] at written
    obtain ⟨writes,persisted,_⟩ := write_stored low length written
    refine ⟨_,written,(writeEntries_tiles offset n).covered,(writeEntries_tiles offset n).ordered,writeEntries_base offset n,
      writeEntries_inBlocks offset n,few,?_⟩
    rw [persisted]
    exact Option.some_ne_none _

theorem write_logged_unaligned : ∃ w, mlfsFileWriteTx 5000 10000 100 = some w ∧ Logged 100 10000 w.entries :=
  (write_logged_iff 5000 10000 100 (by decide) (by decide) (by decide) (by decide)).mpr (by decide)

-- A seek before the start of an empty file leaves a file of 2^64 - 10 bytes. A write of 5 bytes there aligns its
-- offset to 0.
theorem write_behind_wrapped_seek_stops :
    let empty : State := ⟨fun fd => if fd = 3 then some ⟨true,true,true,7,0⟩ else none,fun _ => 0⟩
    ∃ s, call 1 empty (.lseek 3 (-10) .seekEnd) = some (-10,s) ∧ s.size 7 = 18446744073709551606 ∧
      s.off 3 = some 18446744073709551606 ∧ mlfsFileWriteTx 18446744073709551606 5 18446744073709551606 = none := by
  exact ⟨_,rfl,by decide,by decide,by decide⟩

end Assise.FileWrite
