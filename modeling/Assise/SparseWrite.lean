import Assise.FileWrite
import Assise.Lib.Copies

-- What a write behind the end of a file does to its bytes. It fills the gap with calls of itself, whose length and
-- offset are exchanged; its buffer has 64 KB, and a longer call takes what lies behind it on the stack.
namespace Assise.SparseWrite

open OpenFiles FileWrite Transactions Lib.Copies Lib.Tiling List Option

abbrev Content := Nat → UInt8

def fallocBuf (stack : Content) : Content := fun i => if i < allocIoSize then 0 else stack i

def applyEntry (buf : Content) (content : Content) (e : FileEntry) : Content :=
  paste content (fun x => buf (e.base + (x - e.offset))) e.offset (e.offset + e.length)

def applyTx (stack data content : Content) (tx : FileTx) : Content :=
  tx.entries.foldl (applyEntry (if tx.zeros then fallocBuf stack else data)) content

def applyTxs (stack data content : Content) (txs : List FileTx) : Content := txs.foldl (applyTx stack data) content

def posixWrite (fuel size n offset : Nat) : Option (Nat × List FileTx) :=
  if ioSizeLimit < n then none else mlfsFileWrite fuel false size n offset

def SparseRight (size offset n : Nat) : Prop :=
  ∃ fuel size' txs, posixWrite fuel size n offset = some (size',txs) ∧ size' = offset + n ∧
    ∀ stack data content : Content, let after := applyTxs stack data content txs
      (∀ x, size ≤ x → x < offset → after x = 0) ∧ (∀ i, i < n → after (offset + i) = data i) ∧ ∀ x, x < size → after x = content x

section Effects

theorem applyEntries_filled (buf content : Content) {offset a b : Nat} {entries : List FileEntry}
    (tiles : Tiles FileEntry.offset FileEntry.length a entries b) (bases : ∀ e ∈ entries, offset + e.base = e.offset) :
    Filled content (entries.foldl (applyEntry buf) content) (fun x => buf (x - offset)) a b := by
  induction entries generalizing a content with
  | nil =>
    cases tiles
    exact filled_refl _ _ _
  | cons e rest ih =>
    obtain ⟨rfl,later⟩ := tiles
    have base := bases e mem_cons_self
    have first : Filled content (applyEntry buf content e) (fun x => buf (x - offset)) e.offset (e.offset + e.length) :=
      (filled_paste _ _ _ _).congr fun x low _ => congrArg buf (by omega)
    exact first.append (ih _ later fun e' member => bases e' (mem_cons_of_mem _ member)) (Nat.le_add_right ..) later.le

theorem applyTx_filled (stack data content : Content) (zeros : Bool) (offset n : Nat) :
    Filled content (applyTx stack data content ⟨zeros,writeEntries offset n⟩)
      (fun x => (if zeros then fallocBuf stack else data) (x - offset)) offset (offset + n) :=
  applyEntries_filled _ _ (writeEntries_tiles offset n) (writeEntries_base offset n)

theorem applyTxs_append (stack data content : Content) (early late : List FileTx) :
    applyTxs stack data content (early ++ late) = applyTxs stack data (applyTxs stack data content early) late :=
  foldl_append ..

theorem applyTxs_single (stack data content : Content) (tx : FileTx) :
    applyTxs stack data content [tx] = applyTx stack data content tx := rfl

end Effects

section Runs
variable {fuel size n offset size' : Nat} {zeros : Bool} {txs : List FileTx}

theorem writeTx_some {size n offset size' : Nat} {tx : FileTx} (done : writeTx zeros size n offset = some (size',tx)) :
    size' = (if 0 < n ∧ size < offset + n then offset + n else size) ∧ tx = ⟨zeros,writeEntries offset n⟩ := by
  unfold writeTx at done
  dsimp only at done
  split at done
  · cases done
  · cases done
    exact ⟨rfl,rfl⟩

theorem write_inside (inside : offset ≤ size) (done : mlfsFileWrite fuel zeros size n offset = some (size',txs)) :
    size' = (if 0 < n ∧ size < offset + n then offset + n else size) ∧ txs = [⟨zeros,writeEntries offset n⟩] := by
  cases fuel with
  | zero => cases done
  | succ fuel =>
    unfold mlfsFileWrite at done
    rw [if_neg (Nat.not_lt.mpr inside)] at done
    obtain ⟨⟨size₁,tx⟩,written,same⟩ := map_eq_some_iff.mp done
    cases same
    obtain ⟨rfl,rfl⟩ := writeTx_some written
    exact ⟨rfl,rfl⟩

theorem write_behind (behind : size < offset) (done : mlfsFileWrite fuel zeros size n offset = some (size',txs)) :
    ∃ fuel' size₁ txs₁ txs₂, fuel = fuel' + 1 ∧
      mlfsFileFallocate (mlfsFileWrite fuel' true) size size (offset - size) = some (size₁,txs₁) ∧
      mlfsFileWrite fuel' zeros size₁ n offset = some (size',txs₂) ∧ txs = txs₁ ++ txs₂ := by
  cases fuel with
  | zero => cases done
  | succ fuel =>
    unfold mlfsFileWrite at done
    rw [if_pos behind] at done
    obtain ⟨⟨size₁,txs₁⟩,extended,rest⟩ := bind_eq_some_iff.mp done
    obtain ⟨⟨size₂,txs₂⟩,written,same⟩ := map_eq_some_iff.mp rest
    cases same
    exact ⟨fuel,size₁,txs₁,txs₂,rfl,extended,written,rfl⟩

theorem write_near (behind : size < offset) (near : offset ≤ size + allocIoSize)
    (done : mlfsFileWrite fuel zeros size n offset = some (size',txs)) :
    ∃ fuel' size₁ txs₁ txs₂, fuel = fuel' + 1 ∧ mlfsFileWrite fuel' true size size (offset - size) = some (size₁,txs₁) ∧
      mlfsFileWrite fuel' zeros size₁ n offset = some (size',txs₂) ∧ txs = txs₁ ++ txs₂ := by
  obtain ⟨fuel',size₁,txs₁,txs₂,same,extended,rest⟩ := write_behind behind done
  rw [fallocate_one_piece (by omega) (by omega)] at extended
  exact ⟨fuel',size₁,txs₁,txs₂,same,extended,rest⟩

def fillTxs (size first count : Nat) : List FileTx :=
  (List.range count).map fun i => ⟨true,writeEntries (first + i * size) size⟩

theorem fillTxs_succ (size first count : Nat) :
    fillTxs size first (count + 1) = fillTxs size first count ++ [⟨true,writeEntries (first + count * size) size⟩] := by
  unfold fillTxs
  rw [range_succ,map_append]
  rfl

theorem run_after_fill {fuel' size₁ : Nat} {txs₁ txs₂ : List FileTx} (reached : size₁ = offset)
    (done : mlfsFileWrite fuel' zeros size₁ n offset = some (size',txs₂)) :
    txs₁ ++ txs₂ = txs₁ ++ [⟨zeros,writeEntries offset n⟩] ∧ size' = offset + n := by
  obtain ⟨rfl,rfl⟩ := write_inside (Nat.le_of_eq reached.symm) done
  refine ⟨rfl,?_⟩
  split <;> omega

theorem next_piece (first count size : Nat) : first + (count + 1) * size = first + count * size + size := by
  rw [Nat.succ_mul,Nat.add_assoc]

theorem sparse_run {first count : Nat} (low : 0 < first) (high : first ≤ size) (near : first + count * size ≤ allocIoSize)
    (done : mlfsFileWrite fuel zeros size n (first + (count + 1) * size) = some (size',txs)) :
    txs = fillTxs size first (count + 1) ++ [⟨zeros,writeEntries (first + (count + 1) * size) n⟩] ∧
      size' = first + (count + 1) * size + n := by
  induction count generalizing fuel zeros n size' txs with
  | zero =>
    rw [Nat.zero_add,Nat.one_mul] at done ⊢
    obtain ⟨fuel',size₁,txs₁,txs₂,_,extended,written,rfl⟩ := write_near (by omega) (by omega) done
    rw [Nat.add_sub_cancel] at extended
    obtain ⟨grown,rfl⟩ := write_inside high extended
    rw [fillTxs_succ,Nat.zero_mul]
    refine run_after_fill ?_ written
    rw [grown]
    split <;> omega
  | succ count ih =>
    have step := next_piece first (count + 1) size
    have step' := next_piece first count size
    rw [step] at done ⊢
    obtain ⟨fuel',size₁,txs₁,txs₂,_,extended,written,rfl⟩ := write_near (by omega) (by omega) done
    rw [Nat.add_sub_cancel] at extended
    obtain ⟨rfl,rfl⟩ := ih (by omega) extended
    rw [fillTxs_succ _ _ (count + 1)]
    exact run_after_fill rfl written

theorem writeTx_returns (zeros : Bool) (size : Nat) (limited : n ≤ ioSizeLimit) (low : offset ≤ 2 * allocIoSize) :
    (writeTx zeros size n offset).isSome := by
  have fits := oneFits_limited offset zeros limited
  have limit : ioSizeLimit = 2 ^ 24 := rfl
  have buffer : allocIoSize = 2 ^ 16 := rfl
  have block : OpenFiles.gBlockSizeBytes = 4096 := rfl
  unfold OneFits at fits
  unfold writeTx
  rw [block]
  dsimp only at fits ⊢
  rw [if_neg (by omega)]
  rfl

theorem inside_returns (zeros : Bool) (fuel : Nat) (limited : n ≤ ioSizeLimit) (low : offset ≤ 2 * allocIoSize) (inside : offset ≤ size) :
    (mlfsFileWrite (fuel + 1) zeros size n offset).isSome := by
  unfold mlfsFileWrite
  rw [if_neg (Nat.not_lt.mpr inside),Option.isSome_map]
  exact writeTx_returns zeros size limited low

theorem near_returns {size₁ : Nat} {txs₁ : List FileTx} (behind : size < offset) (near : offset ≤ size + allocIoSize)
    (extended : mlfsFileWrite fuel true size size (offset - size) = some (size₁,txs₁))
    (rest : (mlfsFileWrite fuel zeros size₁ n offset).isSome) : (mlfsFileWrite (fuel + 1) zeros size n offset).isSome := by
  unfold mlfsFileWrite
  rw [if_pos behind,fallocate_one_piece (by omega) (by omega),extended,bind_some,Option.isSome_map]
  exact rest

theorem sparse_returns {first count : Nat} (low : 0 < first) (high : first ≤ size) (near : first + count * size ≤ allocIoSize)
    (small : size ≤ allocIoSize) (limited : n ≤ ioSizeLimit) :
    (mlfsFileWrite (count + 2) zeros size n (first + (count + 1) * size)).isSome := by
  have within : allocIoSize ≤ ioSizeLimit := by decide
  induction count generalizing zeros n with
  | zero =>
    rw [Nat.zero_add,Nat.one_mul]
    obtain ⟨⟨size₁,txs₁⟩,extended⟩ : ∃ result, mlfsFileWrite 1 true size size first = some result :=
      isSome_iff_exists.mp (inside_returns true 0 (Nat.le_trans small within) (by omega) high)
    obtain ⟨grown,_⟩ := write_inside high extended
    have filled : mlfsFileWrite 1 true size size (first + size - size) = some (size₁,txs₁) := by rwa [Nat.add_sub_cancel]
    refine near_returns (by omega) (by omega) filled ?_
    refine inside_returns zeros 0 limited (by omega) ?_
    rw [grown]
    split <;> omega
  | succ count ih =>
    have step := next_piece first (count + 1) size
    have step' := next_piece first count size
    obtain ⟨⟨size₁,txs₁⟩,extended⟩ : ∃ result, mlfsFileWrite (count + 2) true size size (first + (count + 1) * size) = some result :=
      isSome_iff_exists.mp (ih (by omega) (Nat.le_trans small within))
    obtain ⟨_,rfl⟩ := sparse_run low high (by omega) extended
    rw [step]
    refine near_returns (by omega) (by omega) (by rwa [Nat.add_sub_cancel]) ?_
    exact inside_returns zeros (count + 1) limited (by omega) (Nat.le_refl _)

theorem fill_each {write : Nat → Nat → Nat → Option (Nat × List FileTx)} {P : FileTx → Prop} {sizes : List Nat}
    {now last : Nat × Nat × List FileTx}
    (each : ∀ piece ∈ sizes, ∀ size n size' txs, write size n piece = some (size',txs) → ∀ tx ∈ txs, P tx)
    (before : ∀ tx ∈ now.2.2, P tx) (done : sizes.foldlM (fill write) now = some last) : ∀ tx ∈ last.2.2, P tx := by
  induction sizes generalizing now with
  | nil =>
    cases done
    exact before
  | cons piece rest ih =>
    rw [foldlM_cons] at done
    obtain ⟨middle,first,later⟩ := bind_eq_some_iff.mp done
    obtain ⟨⟨size₂,txs₂⟩,written,rfl⟩ := map_eq_some_iff.mp first
    refine ih (fun piece' member => each piece' (mem_cons_of_mem _ member)) ?_ later
    intro tx member
    exact (mem_append.mp member).elim (before tx) (each piece mem_cons_self _ _ _ _ written tx)

theorem pieces_le {limit : Nat} (fuel left : Nat) : ∀ piece ∈ pieces limit fuel left, piece ≤ limit := by
  induction fuel generalizing left with
  | zero => exact fun _ member => absurd member not_mem_nil
  | succ fuel ih =>
    intro piece member
    unfold pieces at member
    split at member
    · cases member
    · rcases mem_cons.mp member with rfl | later
      · exact Nat.min_le_right ..
      · exact ih (left - limit) piece later

theorem write_starts (done : mlfsFileWrite fuel zeros size n offset = some (size',txs)) :
    ∀ tx ∈ txs, tx = ⟨zeros,writeEntries offset n⟩ ∨ ∃ start length, start ≤ allocIoSize ∧ tx = ⟨true,writeEntries start length⟩ := by
  induction fuel generalizing zeros size n offset size' txs with
  | zero => cases done
  | succ fuel ih =>
    by_cases behind : size < offset
    · obtain ⟨fuel',size₁,txs₁,txs₂,same,extended,written,rfl⟩ := write_behind behind done
      cases same
      rw [mlfsFileFallocate_fill _ (Nat.le_refl size) (by omega)] at extended
      obtain ⟨last,filled,same⟩ := map_eq_some_iff.mp extended
      cases same
      intro tx member
      rcases mem_append.mp member with before | after
      · refine .inr (fill_each (P := fun tx => ∃ start length, start ≤ allocIoSize ∧ tx = ⟨true,writeEntries start length⟩)
          (fun piece member size n size' txs nested tx inside => ?_) (fun _ member => absurd member not_mem_nil) filled tx before)
        rcases ih nested tx inside with rfl | early
        · exact ⟨piece,n,pieces_le _ _ piece member,rfl⟩
        · exact early
      · exact ih written tx after
    · obtain ⟨_,rfl⟩ := write_inside (Nat.le_of_not_lt behind) done
      intro tx member
      exact .inl (mem_singleton.mp member)

theorem offset_parts (positive : 0 < size) (behind : size < offset) :
    ∃ first count, 0 < first ∧ first ≤ size ∧ offset = first + (count + 1) * size := by
  have split := Nat.mod_add_div (offset - 1) size
  have small := Nat.mod_lt (offset - 1) positive
  have whole : 0 < (offset - 1) / size := Nat.div_pos (by omega) positive
  refine ⟨(offset - 1) % size + 1,(offset - 1) / size - 1,Nat.succ_pos _,small,?_⟩
  rw [Nat.sub_add_cancel whole,Nat.mul_comm _ size]
  omega

theorem fill_two_pieces (positive : 0 < size) (far : size + allocIoSize < offset) (low : offset ≤ 2 * allocIoSize)
    (done : mlfsFileFallocate (mlfsFileWrite fuel zeros) size size (offset - size) = some (size',txs)) : size' = allocIoSize + size := by
  have two : pieces allocIoSize (offset - size) (offset - size) = [allocIoSize,offset - size - allocIoSize] := by
    rw [pieces_cons (by decide) (by omega),Nat.min_eq_right (by omega),pieces_single (by omega) (by omega)]
  rw [mlfsFileFallocate_fill _ (Nat.le_refl size) (by omega),Nat.sub_self,Nat.sub_zero,two] at done
  obtain ⟨⟨size₂,twice,txs₂⟩,filled,same⟩ := map_eq_some_iff.mp done
  cases same
  rw [foldlM_cons] at filled
  obtain ⟨middle,early,later⟩ := bind_eq_some_iff.mp filled
  obtain ⟨⟨size₁,txs₁⟩,written,rfl⟩ := map_eq_some_iff.mp early
  rw [foldlM_cons] at later
  obtain ⟨final,late,same⟩ := bind_eq_some_iff.mp later
  obtain ⟨⟨size₃,txs₃⟩,written',rfl⟩ := map_eq_some_iff.mp late
  cases same
  -- The first nested write ends the file at 64 KB and its own length, and the second lies below.
  obtain ⟨first,count,above,below,parts⟩ := offset_parts positive (show size < allocIoSize by omega)
  have step : first + (count + 1) * size = first + count * size + size := by rw [Nat.succ_mul,Nat.add_assoc]
  dsimp only at written written'
  rw [parts] at written
  obtain ⟨_,grown⟩ := sparse_run above below (by omega) written
  rw [←parts] at grown
  obtain ⟨last,_⟩ := write_inside (by omega) written'
  rw [last,grown]
  split <;> omega

end Runs

section Right
variable (stack data content : Content)

theorem fillTxs_filled (size first count : Nat) :
    Filled content (applyTxs stack data content (fillTxs size first count)) (fun x => fallocBuf stack ((x - first) % size))
      first (first + count * size) := by
  induction count with
  | zero =>
    rw [Nat.zero_mul]
    exact filled_refl _ _ _
  | succ count ih =>
    rw [fillTxs_succ,applyTxs_append,applyTxs_single,Nat.succ_mul,←Nat.add_assoc]
    refine ih.append ((applyTx_filled ..).congr fun x low high => ?_) (Nat.le_add_right ..) (Nat.le_add_right ..)
    have split : x - first = x - (first + count * size) + count * size := by omega
    rw [split,Nat.add_mul_mod_self_right,Nat.mod_eq_of_lt (by omega)]
    rfl

theorem fallocBuf_low {i : Nat} (low : i < allocIoSize) : fallocBuf stack i = 0 := if_pos low

theorem fallocBuf_high {i : Nat} (high : allocIoSize ≤ i) : fallocBuf stack i = stack i := if_neg (Nat.not_lt.mpr high)

theorem fallocBuf_two (i : Nat) : fallocBuf (fun _ => 2) i ≠ 1 := by
  unfold fallocBuf
  split
  · exact Ne.symm (by decide)
  · exact (by decide : (2 : UInt8) ≠ 1)

theorem applyTxs_keeps {txs : List FileTx} {x : Nat} {byte : UInt8} (holds : content x = byte)
    (each : ∀ tx ∈ txs, ∀ content : Content, content x = byte → applyTx stack data content tx x = byte) :
    applyTxs stack data content txs x = byte := by
  induction txs generalizing content with
  | nil => exact holds
  | cons tx rest ih =>
    exact ih _ (each tx mem_cons_self content holds) fun tx' member => each tx' (mem_cons_of_mem _ member)

end Right

section Settled
variable {size offset n : Nat}

theorem posixWrite_some {fuel size' : Nat} {txs : List FileTx} (done : posixWrite fuel size n offset = some (size',txs)) :
    n ≤ ioSizeLimit ∧ mlfsFileWrite fuel false size n offset = some (size',txs) := by
  unfold posixWrite at done
  split at done
  · cases done
  · exact ⟨by omega,done⟩

theorem near_right (positive : 0 < size) (behind : size < offset) (near : offset ≤ size + allocIoSize) (limited : n ≤ ioSizeLimit)
    (whole : size ∣ offset) : SparseRight size offset n := by
  obtain ⟨count,rfl⟩ : ∃ count, offset = size + (count + 1) * size := by
    obtain ⟨first,count,above,below,rfl⟩ := offset_parts positive behind
    have rest : size ∣ first := (Nat.dvd_add_iff_left (Nat.dvd_mul_left size (count + 1))).mpr whole
    exact ⟨count,by rw [Nat.le_antisymm below (Nat.le_of_dvd above rest)]⟩
  have step : (count + 1) * size = count * size + size := Nat.succ_mul ..
  obtain ⟨⟨size',txs⟩,done⟩ : ∃ result, mlfsFileWrite (count + 2) false size n (size + (count + 1) * size) = some result :=
    isSome_iff_exists.mp (sparse_returns positive (Nat.le_refl _) (by omega) (by omega) limited)
  obtain ⟨rfl,rfl⟩ := sparse_run positive (Nat.le_refl _) (by omega) done
  refine ⟨count + 2,_,_,(if_neg (Nat.not_lt.mpr limited)).trans done,rfl,fun stack data content => ?_⟩
  dsimp only
  rw [applyTxs_append,applyTxs_single]
  have gap := fillTxs_filled stack data content size size (count + 1)
  have bytes := applyTx_filled stack data (applyTxs stack data content (fillTxs size size (count + 1))) false
    (size + (count + 1) * size) n
  refine ⟨fun x low high => ?_,fun i inside => ?_,fun x below => ?_⟩
  · rw [bytes.outside x (.inl high),gap.inside x low high]
    exact fallocBuf_low stack (Nat.lt_of_lt_of_le (Nat.mod_lt _ positive) (by omega))
  · rw [bytes.inside _ (Nat.le_add_right ..) (Nat.add_lt_add_left inside _),Nat.add_sub_cancel_left]
    rfl
  · rw [bytes.outside x (.inl (by omega)),gap.outside x (.inl below)]

theorem near_divides (positive : 0 < size) (behind : size < offset) (near : offset ≤ size + allocIoSize)
    (right : SparseRight size offset n) : size ∣ offset := by
  obtain ⟨fuel,size',txs,done,_,bytes⟩ := right
  obtain ⟨_,done⟩ := posixWrite_some done
  obtain ⟨first,count,above,below,rfl⟩ := offset_parts positive behind
  have step : (count + 1) * size = count * size + size := Nat.succ_mul ..
  obtain ⟨rfl,_⟩ := sparse_run above below (by omega) done
  rcases Nat.lt_or_eq_of_le below with inside | rfl
  · exfalso
    have kept := (bytes (fun _ => 2) (fun _ => 0) (fun _ => 1)).2.2 (size - 1) (by omega)
    rw [applyTxs_append,applyTxs_single,(applyTx_filled ..).outside _ (.inl (by omega)),
      (fillTxs_filled ..).inside _ (by omega) (by omega)] at kept
    exact fallocBuf_two _ kept
  · exact Nat.dvd_add (Nat.dvd_refl _) (Nat.dvd_mul_left ..)

theorem far_wrong (high : 2 * allocIoSize < offset) (behind : size < offset) : ¬ SparseRight size offset n := by
  rintro ⟨fuel,size',txs,done,_,bytes⟩
  obtain ⟨_,done⟩ := posixWrite_some done
  have zero := (bytes (fun _ => 2) (fun _ => 0) (fun _ => 2)).1 (offset - 1) (by omega) (by omega)
  have two : applyTxs (fun _ => 2) (fun _ => 0) (fun _ => 2) txs (offset - 1) = 2 := by
    refine applyTxs_keeps _ _ _ rfl fun tx member content holds => ?_
    rcases write_starts done tx member with rfl | ⟨start,length,low,rfl⟩
    · rw [(applyTx_filled ..).outside _ (.inl (by omega)),holds]
    · rcases Nat.lt_or_ge (offset - 1) (start + length) with inside | outside
      · have two : fallocBuf (fun _ => 2) (offset - 1 - start) = 2 := fallocBuf_high _ (by omega)
        exact ((applyTx_filled ..).inside _ (by omega) inside).trans two
      · rw [(applyTx_filled ..).outside _ (.inr outside),holds]
  rw [two] at zero
  exact absurd zero (by decide)

theorem middle_wrong (positive : 0 < size) (low : offset ≤ 2 * allocIoSize) (far : size + allocIoSize < offset) :
    ¬ SparseRight size offset n := by
  rintro ⟨fuel,size',txs,done,_,bytes⟩
  obtain ⟨_,done⟩ := posixWrite_some done
  obtain ⟨fuel',size₁,txs₁,txs₂,_,extended,again,rfl⟩ := write_behind (by omega) done
  have reached := fill_two_pieces positive far low extended
  obtain ⟨fuel₂,size₂,txs₃,txs₄,_,filled,written,rfl⟩ := write_near (by omega) (by omega) again
  obtain ⟨grown,rfl⟩ := write_inside (by omega) filled
  obtain ⟨_,rfl⟩ := write_inside (by rw [grown]; split <;> omega) written
  have zero := (bytes (fun _ => 2) (fun _ => 0) (fun _ => 2)).1 (offset - 1) (by omega) (by omega)
  rw [applyTxs_append,applyTxs_append,applyTxs_single,applyTxs_single,(applyTx_filled ..).outside _ (.inl (by omega)),
    (applyTx_filled ..).inside _ (by omega) (by omega)] at zero
  have two : fallocBuf (fun _ => 2) (offset - 1 - (offset - size₁)) = 2 := fallocBuf_high _ (by omega)
  exact absurd (two.symm.trans zero) (by decide)

end Settled

theorem sparse_write_right_iff {size offset n : Nat} (behind : size < offset) :
    SparseRight size offset n ↔ 0 < size ∧ size ∣ offset ∧ offset ≤ size + allocIoSize ∧ n ≤ ioSizeLimit := by
  constructor
  · intro right
    obtain ⟨fuel,size',txs,returned,_⟩ := id right
    obtain ⟨limited,done⟩ := posixWrite_some returned
    have positive : 0 < size := by
      rcases Nat.eq_zero_or_pos size with rfl | positive
      · rw [sparse_write_of_empty_file fuel false n offset behind] at done
        cases done
      · exact positive
    have near : offset ≤ size + allocIoSize := by
      by_contra far
      rcases Nat.lt_or_ge (2 * allocIoSize) offset with high | low
      · exact far_wrong high behind right
      · exact middle_wrong positive low (Nat.lt_of_not_le far) right
    exact ⟨positive,near_divides positive behind near right,near,limited⟩
  · rintro ⟨positive,whole,near,limited⟩
    exact near_right positive behind near limited whole

theorem sparse_write_right_five_lengths : 100 < 500 ∧ SparseRight 100 500 1 :=
  ⟨by decide,(sparse_write_right_iff (by decide)).mpr (by decide)⟩

-- One byte at 250 of a file of 100: the nested writes are of 100 bytes at 50 and at 150. An empty file does not
-- return.
theorem sparse_write_takes_old_bytes :
    posixWrite 3 100 1 250 = some (251,[⟨true,[⟨50,100,0⟩]⟩,⟨true,[⟨150,100,0⟩]⟩,⟨false,[⟨250,1,0⟩]⟩]) ∧
      applyTxs (fun _ => 0) (fun _ => 7) (fun _ => 1) [⟨true,[⟨50,100,0⟩]⟩,⟨true,[⟨150,100,0⟩]⟩,⟨false,[⟨250,1,0⟩]⟩] 99 = 0 ∧
      ¬ SparseRight 100 250 1 ∧ ∀ fuel, posixWrite fuel 0 1 1 = none := by
  refine ⟨by decide,by decide,fun right => ?_,fun fuel => sparse_write_of_empty_file fuel false 1 1 (by decide)⟩
  exact absurd (near_divides (by decide) (by decide) (by decide) right) (by decide)

end Assise.SparseWrite
