import Assise.FileWrite

-- How `readi` cuts a read into pieces at block boundaries. Offsets have 64 bits, the size of a request 32, and each
-- piece is reported back as an `int`; `none` stands for a failed assertion.
namespace Assise.FileRead

open OpenFiles FileWrite Lib.Tiling List Option

structure Cut where
  small : Nat
  prepended : Nat
  aligned : Nat
  appended : Nat
deriving DecidableEq, Repr

def cutRead (off ioSize : Nat) : Cut :=
  let offsetEnd := add64 off ioSize
  let offsetAligned := align64 off
  if offsetAligned = off ∧ offsetEnd = align64 offsetEnd then ⟨0,0,ioSize,0⟩
  else if (offsetAligned = off ∧ ioSize < gBlockSizeBytes) ∨ offsetEnd < offsetAligned then ⟨ioSize,0,0,0⟩
  else
    let prepended := if off < offsetAligned then offsetAligned - off else 0
    let gap := sub64 (align64 offsetEnd) offsetEnd
    let appended := if 0 < gap then sub64 gBlockSizeBytes gap else gap
    ⟨0,prepended,sub64 (sub64 ioSize prepended) appended,appended⟩

structure Reading (σ : Type) where
  state : σ
  off : Nat
  dst : Nat

section Pieces
variable {σ : Type}

abbrev Reader (σ : Type) := σ → Nat → Nat → Nat → Option σ

-- The reader returns its size as an `int`, which the assertion behind it compares with the 64-bit size.
def readPiece (read : Reader σ) (size : Nat) (r : Reading σ) : Option (Reading σ) :=
  if size = 0 then some r
  else
    let ioSize := size % 2 ^ 32
    (read r.state r.off ioSize r.dst).bind fun state =>
      if (size : Int) = (ioSize : Int).bmod (2 ^ 32) % 2 ^ 64 then some ⟨state,add64 r.off size,r.dst + size⟩ else none

def clipRead (size off ioSize : Nat) : Nat := if size < add64 off ioSize then sub64 size off % 2 ^ 32 else ioSize

def readPieces (unaligned aligned : Reader σ) (cut : Cut) (r : Reading σ) : Option (Reading σ) :=
  (readPiece unaligned cut.small r).bind fun r =>
    (readPiece unaligned cut.prepended r).bind fun r =>
      (readPiece aligned cut.aligned r).bind fun r => readPiece unaligned cut.appended r

def readi (unaligned aligned : Reader σ) (state : σ) (size off ioSize : Nat) : Option (σ × Int) :=
  if size ≤ off then none
  else (readPieces unaligned aligned (cutRead off (clipRead size off ioSize)) ⟨state,off,0⟩).map fun r =>
    (r.state,(r.dst : Int).bmod (2 ^ 32))

end Pieces

structure Piece where
  off : Nat
  size : Nat
  dst : Nat
  aligned : Bool
deriving DecidableEq, Repr

def takeUnaligned : Reader (List Piece) := fun pieces off ioSize dst =>
  if ioSize < gBlockSizeBytes then some (pieces ++ [⟨off,ioSize,dst,false⟩]) else none

def takeAligned : Reader (List Piece) := fun pieces off ioSize dst =>
  if ioSize % gBlockSizeBytes = 0 then some (pieces ++ [⟨off,ioSize,dst,true⟩]) else none

def Piece.Shaped (p : Piece) : Prop :=
  if p.aligned then p.off % gBlockSizeBytes = 0 ∧ p.size % gBlockSizeBytes = 0
  else p.size < gBlockSizeBytes ∧ p.off % gBlockSizeBytes + p.size ≤ gBlockSizeBytes

def CutsRight (size off n : Nat) : Prop :=
  ∃ pieces ret, readi takeUnaligned takeAligned [] size off n = some (pieces,ret) ∧
    Tiles Piece.off Piece.size off pieces (min (off + n) size) ∧
    ∀ p ∈ pieces, p.dst = p.off - off ∧ p.Shaped

section Assertion

def unlessEmpty {σ : Type} (read : Reader σ) : Reader σ := fun state off size dst =>
  if size = 0 then some state else read state off size dst

variable {off size : Nat}

theorem int_size (fits : size < 2 ^ 32) :
    ((size : Int) = ((size % 2 ^ 32 : Nat) : Int).bmod (2 ^ 32) % 2 ^ 64) ↔ size < 2 ^ 31 := by
  rw [Nat.mod_eq_of_lt fits,Int.bmod_def]
  split <;> omega

variable {σ : Type} {read : Reader σ} {r : Reading σ}

theorem readPiece_eq (fits : size < 2 ^ 31) (inside : r.off + size < 2 ^ 64) :
    readPiece read size r = (unlessEmpty read r.state r.off size r.dst).map fun state => ⟨state,r.off + size,r.dst + size⟩ := by
  have short : size % 2 ^ 32 = size := Nat.mod_eq_of_lt (by omega)
  have passes := (int_size (by omega)).mpr fits
  have next : add64 r.off size = r.off + size := Nat.mod_eq_of_lt inside
  unfold readPiece unlessEmpty
  by_cases empty : size = 0
  · rw [if_pos empty,if_pos empty,empty]
    rfl
  · rw [if_neg empty,if_neg empty]
    dsimp only
    rw [short] at passes ⊢
    rw [next]
    simp only [if_pos passes]
    cases read r.state r.off size r.dst <;> rfl

theorem readPiece_long (fits : size < 2 ^ 32) (long : 2 ^ 31 ≤ size) : readPiece read size r = none := by
  have fails : ¬ _ := mt (int_size fits).mp (not_lt.mpr long)
  unfold readPiece
  rw [if_neg (by omega)]
  dsimp only
  simp only [if_neg fails]
  cases read r.state r.off (size % 2 ^ 32) r.dst <;> rfl

end Assertion

section Cut
variable {off stop : Nat}

theorem align64_self {x : Nat} (bound : x < 2 ^ 64) : x = align64 x ↔ x % gBlockSizeBytes = 0 := by
  have block : gBlockSizeBytes = 4096 := rfl
  unfold align64 add64
  rw [block]
  omega

def Inside (off stop : Nat) : Prop := (off % gBlockSizeBytes = 0 ∧ stop - off < gBlockSizeBytes) ∨ stop < align off

instance (off stop : Nat) : Decidable (Inside off stop) := inferInstanceAs (Decidable (_ ∨ _))

theorem Inside.bounds (within : Inside off stop) : stop - off < gBlockSizeBytes ∧
    off % gBlockSizeBytes + (stop - off) ≤ gBlockSizeBytes ∧ stop / gBlockSizeBytes * gBlockSizeBytes ≤ align off := by
  have block : gBlockSizeBytes = 4096 := rfl
  unfold Inside align at within
  unfold align
  rw [block] at within ⊢
  omega

theorem cutRead_eq (low : off ≤ 2 ^ 64 - gBlockSizeBytes) (bound : stop < 2 ^ 64) (some : off < stop) :
    cutRead off (stop - off) = if Inside off stop then ⟨stop - off,0,0,0⟩
      else ⟨0,align off - off,stop / gBlockSizeBytes * gBlockSizeBytes - align off,stop % gBlockSizeBytes⟩ := by
  have block : gBlockSizeBytes = 4096 := rfl
  have whole_ends : off + (stop - off) = stop := Nat.add_sub_cancel' (le_of_lt some)
  have ends : add64 off (stop - off) = stop := by
    unfold add64
    rw [whole_ends]
    exact Nat.mod_eq_of_lt bound
  have start : align off = off ↔ off % gBlockSizeBytes = 0 := by
    unfold align
    rw [block]
    omega
  unfold cutRead
  dsimp only
  rw [ends,align64_low low,appended_eq bound]
  have last := align64_self bound
  by_cases whole : align off = off ∧ stop = align64 stop
  · -- whole blocks: nothing is left before the first boundary or behind the last one
    obtain ⟨first,final⟩ := whole
    have tail := last.mp final
    have inside : ¬ Inside off stop := by
      unfold Inside
      rw [first,←start]
      rw [block] at tail ⊢
      have head := start.mp first
      rw [block] at head
      omega
    rw [if_pos ⟨first,final⟩,if_neg inside,first,tail,Nat.sub_self,Nat.div_mul_cancel (Nat.dvd_of_mod_eq_zero tail)]
  · have same : (align off = off ∧ stop - off < gBlockSizeBytes) ∨ stop < align off ↔ Inside off stop :=
      or_congr (and_congr start Iff.rfl) Iff.rfl
    rw [if_neg whole,if_congr same rfl rfl]
    by_cases inside : Inside off stop
    · rw [if_pos inside,if_pos inside]
    · rw [if_neg inside,if_neg inside]
      obtain ⟨least,near,_⟩ := align_bounds off
      have reaches : align off ≤ stop := by
        by_contra short
        exact inside (.inr (Nat.lt_of_not_le short))
      have first : (if off < align off then align off - off else 0) = align off - off := by
        split <;> omega
      have room := ends_fit (by rwa [whole_ends] : align off ≤ off + (stop - off))
      rw [whole_ends] at room
      have middle : sub64 (sub64 (stop - off) (align off - off)) (stop % gBlockSizeBytes) =
          stop / gBlockSizeBytes * gBlockSizeBytes - align off := by
        have parts := Nat.div_add_mod' stop gBlockSizeBytes
        unfold sub64
        omega
      rw [first,middle]

end Cut

section Read
variable {σ : Type} {unaligned aligned : Reader σ} {state : σ} {size off n : Nat}

def readStop (size off n : Nat) : Nat := min (off + n) size

structure Addressed (size off n : Nat) : Prop where
  file : size < 2 ^ 64
  inside : off < size
  some : 1 ≤ n
  short : n < 2 ^ 32
  stop : off + n < 2 ^ 64
  boundary : off ≤ 2 ^ 64 - gBlockSizeBytes

theorem Addressed.bounds (addressed : Addressed size off n) : off < readStop size off n ∧ readStop size off n < 2 ^ 64 ∧
    readStop size off n - off < 2 ^ 32 := by
  obtain ⟨file,inside,some,short,stop,_⟩ := addressed
  unfold readStop
  omega

theorem clipRead_eq (file : size < 2 ^ 64) (inside : off < size) (short : n < 2 ^ 32) (stop : off + n < 2 ^ 64) :
    clipRead size off n = readStop size off n - off := by
  have ends : add64 off n = off + n := Nat.mod_eq_of_lt stop
  have rest : sub64 size off % 2 ^ 32 = (size - off) % 2 ^ 32 := by
    unfold sub64
    omega
  unfold clipRead readStop
  rw [ends,rest]
  split <;> omega

theorem Addressed.clip (addressed : Addressed size off n) : clipRead size off n = readStop size off n - off :=
  clipRead_eq addressed.file addressed.inside addressed.short addressed.stop

theorem readi_inside (addressed : Addressed size off n) (inside : Inside off (readStop size off n)) :
    readi unaligned aligned state size off n =
      (unaligned state off (readStop size off n - off) 0).map fun state =>
        (state,((readStop size off n - off : Nat) : Int).bmod (2 ^ 32)) := by
  obtain ⟨some,bound,_⟩ := addressed.bounds
  have block : gBlockSizeBytes = 4096 := rfl
  have short := inside.bounds.1
  rw [block] at short
  unfold readi readPieces
  rw [if_neg (not_le.mpr addressed.inside),addressed.clip,cutRead_eq addressed.boundary bound some,if_pos inside]
  dsimp only
  rw [readPiece_eq (by omega) (by dsimp only; omega)]
  unfold unlessEmpty
  rw [if_neg (by omega)]
  cases unaligned state off (readStop size off n - off) 0 with
  | none => rfl
  | some state => simp [readPiece]

theorem readi_blocks (addressed : Addressed size off n) (across : ¬ Inside off (readStop size off n)) :
    let stop := readStop size off n
    let last := stop / gBlockSizeBytes * gBlockSizeBytes
    (last < align off + 2 ^ 31 → readi unaligned aligned state size off n =
      (unlessEmpty unaligned state off (align off - off) 0).bind fun state =>
        (unlessEmpty aligned state (align off) (last - align off) (align off - off)).bind fun state =>
          (unlessEmpty unaligned state last (stop % gBlockSizeBytes) (last - off)).map fun state =>
            (state,((stop - off : Nat) : Int).bmod (2 ^ 32))) ∧
    (align off + 2 ^ 31 ≤ last → readi unaligned aligned state size off n = none) := by
  intro stop last
  obtain ⟨some,bound,short⟩ := addressed.bounds
  have block : gBlockSizeBytes = 4096 := rfl
  obtain ⟨least,near,_⟩ := align_bounds off
  have tail : stop % gBlockSizeBytes < 4096 := Nat.mod_lt stop (by decide)
  have parts : last + stop % gBlockSizeBytes = stop := Nat.div_add_mod' stop gBlockSizeBytes
  have reaches : align off ≤ stop := by
    by_contra early
    exact across (.inr (Nat.lt_of_not_le early))
  have whole_ends : off + (stop - off) = stop := Nat.add_sub_cancel' (le_of_lt some)
  have room := ends_fit (by rwa [whole_ends] : align off ≤ off + (stop - off))
  rw [whole_ends] at room
  have cut := cutRead_eq addressed.boundary bound some
  rw [if_neg across] at cut
  have start : readi unaligned aligned state size off n =
      (readPieces unaligned aligned ⟨0,align off - off,last - align off,stop % gBlockSizeBytes⟩ ⟨state,off,0⟩).map fun r =>
        (r.state,(r.dst : Int).bmod (2 ^ 32)) := by
    unfold readi
    rw [if_neg (not_le.mpr addressed.inside),addressed.clip,cut]
  have first : readPiece unaligned 0 ⟨state,off,0⟩ = Option.some ⟨state,off,0⟩ := rfl
  rw [start]
  unfold readPieces
  dsimp only
  rw [first,bind_some,readPiece_eq (by omega) (by dsimp only; omega)]
  dsimp only
  rw [block] at near
  refine ⟨fun fits => ?_,fun long => ?_⟩
  · cases unlessEmpty unaligned state off (align off - off) 0 with
    | none => rfl
    | some state =>
      have off' : off + (align off - off) = align off := by omega
      simp only [map_some,bind_some,zero_add,off']
      rw [readPiece_eq (by omega) (by dsimp only; omega)]
      dsimp only
      cases unlessEmpty aligned state (align off) (last - align off) (align off - off) with
      | none => rfl
      | some state =>
        have place : align off + (last - align off) = last ∧ align off - off + (last - align off) = last - off := by omega
        simp only [map_some,bind_some,place.1,place.2]
        rw [readPiece_eq (by omega) (by dsimp only; omega)]
        dsimp only
        cases unlessEmpty unaligned state last (stop % gBlockSizeBytes) (last - off) with
        | none => rfl
        | some state =>
          have total : last - off + stop % gBlockSizeBytes = stop - off := by omega
          simp only [map_some,total]
  · cases unlessEmpty unaligned state off (align off - off) 0 with
    | none => rfl
    | some state =>
      simp only [map_some,bind_some]
      rw [readPiece_long (by omega) (by omega)]
      rfl

end Read

def pieceOf (off size dst : Nat) (aligned : Bool) : List Piece := if size = 0 then [] else [⟨off,size,dst,aligned⟩]

theorem pieceOf_tiles (off size dst : Nat) (aligned : Bool) :
    Tiles Piece.off Piece.size off (pieceOf off size dst aligned) (off + size) := by
  unfold pieceOf
  split
  · rename_i empty
    rw [empty]
    rfl
  · exact tiles_single rfl rfl

variable {dst : Nat}

theorem pieceOf_mem {p : Piece} {aligned : Bool} (member : p ∈ pieceOf off size dst aligned) :
    p = ⟨off,size,dst,aligned⟩ := by
  unfold pieceOf at member
  split at member
  · cases member
  · exact mem_singleton.mp member

theorem takeUnaligned_eq (pieces : List Piece) (short : size < gBlockSizeBytes) :
    unlessEmpty takeUnaligned pieces off size dst = some (pieces ++ pieceOf off size dst false) := by
  unfold unlessEmpty takeUnaligned pieceOf
  rw [if_pos short]
  split
  · rw [append_nil]
  · rfl

theorem takeAligned_eq (pieces : List Piece) (whole : size % gBlockSizeBytes = 0) :
    unlessEmpty takeAligned pieces off size dst = some (pieces ++ pieceOf off size dst true) := by
  unfold unlessEmpty takeAligned pieceOf
  rw [if_pos whole]
  split
  · rw [append_nil]
  · rfl

section Right
variable {size off n : Nat}

theorem cutsRight_inside (addressed : Addressed size off n) (inside : Inside off (readStop size off n)) :
    CutsRight size off n := by
  obtain ⟨some,bound,_⟩ := addressed.bounds
  obtain ⟨short,fits,_⟩ := inside.bounds
  have taken : takeUnaligned [] off (readStop size off n - off) 0 = Option.some [⟨off,readStop size off n - off,0,false⟩] :=
    if_pos short
  have read : readi takeUnaligned takeAligned [] size off n = _ := readi_inside addressed inside
  rw [taken,map_some] at read
  refine ⟨_,_,read,tiles_single rfl (Nat.add_sub_cancel' (le_of_lt some)),fun p member => ?_⟩
  cases mem_singleton.mp member
  exact ⟨(Nat.sub_self off).symm,short,fits⟩

theorem cutsRight_blocks (addressed : Addressed size off n) (across : ¬ Inside off (readStop size off n))
    (fits : readStop size off n / gBlockSizeBytes * gBlockSizeBytes < align off + 2 ^ 31) : CutsRight size off n := by
  obtain ⟨some,bound,_⟩ := addressed.bounds
  have read : readi takeUnaligned takeAligned [] size off n = _ := (readi_blocks addressed across).1 fits
  have block : gBlockSizeBytes = 4096 := rfl
  obtain ⟨least,near,boundary⟩ := align_bounds off
  generalize hstop : readStop size off n = stop at *
  have tail := Nat.mod_lt stop (by decide : 0 < gBlockSizeBytes)
  have parts := Nat.div_add_mod' stop gBlockSizeBytes
  have lastWhole : stop / gBlockSizeBytes * gBlockSizeBytes % gBlockSizeBytes = 0 := Nat.mul_mod_left _ _
  generalize hlast : stop / gBlockSizeBytes * gBlockSizeBytes = last at *
  have reaches : align off ≤ last := by
    by_contra early
    refine across ?_
    unfold Inside
    rw [block] at *
    omega
  have middle : (last - align off) % gBlockSizeBytes = 0 := by
    rw [block] at boundary lastWhole ⊢
    omega
  rw [takeUnaligned_eq [] (by omega : align off - off < gBlockSizeBytes),bind_some,
    takeAligned_eq _ middle,bind_some,takeUnaligned_eq _ tail,map_some] at read
  refine ⟨_,_,read,?_,fun p member => ?_⟩
  · have first := pieceOf_tiles off (align off - off) 0 false
    have second := pieceOf_tiles (align off) (last - align off) (align off - off) true
    have third := pieceOf_tiles last (stop % gBlockSizeBytes) (last - off) false
    rw [Nat.add_sub_cancel' least] at first
    rw [Nat.add_sub_cancel' reaches] at second
    rw [parts] at third
    have ends : min (off + n) size = stop := hstop
    rw [ends]
    exact (first.append second).append third
  · rcases mem_append.mp member with early | late
    · rcases mem_append.mp early with first | second
      · cases pieceOf_mem first
        refine ⟨(Nat.sub_self off).symm,?_⟩
        show align off - off < gBlockSizeBytes ∧ off % gBlockSizeBytes + (align off - off) ≤ gBlockSizeBytes
        unfold align
        rw [block]
        omega
      · cases pieceOf_mem second
        exact ⟨rfl,boundary,middle⟩
    · cases pieceOf_mem late
      refine ⟨rfl,tail,?_⟩
      dsimp only
      rw [lastWhole,zero_add]
      exact le_of_lt tail

end Right

section Wrong
variable {size off n : Nat}

def total (pieces : List Piece) : Nat := (pieces.map Piece.size).sum

def Adds (read : Reader (List Piece)) : Prop :=
  ∀ pieces off ioSize dst pieces', read pieces off ioSize dst = some pieces' → total pieces' = total pieces + ioSize

theorem total_append (pieces : List Piece) (p : Piece) : total (pieces ++ [p]) = total pieces + p.size := by
  unfold total
  rw [map_append,sum_append]
  simp

theorem takeUnaligned_adds : Adds takeUnaligned := by
  intro pieces off ioSize dst pieces' done
  unfold takeUnaligned at done
  split at done
  · cases done
    exact total_append _ _
  · cases done

theorem takeAligned_adds : Adds takeAligned := by
  intro pieces off ioSize dst pieces' done
  unfold takeAligned at done
  split at done
  · cases done
    exact total_append _ _
  · cases done

theorem readPiece_total {read : Reader (List Piece)} (adds : Adds read) {r r' : Reading (List Piece)}
    (done : readPiece read n r = some r') : total r'.state = total r.state + n % 2 ^ 32 := by
  unfold readPiece at done
  split at done
  · rename_i empty
    cases done
    rw [empty]
    rfl
  · obtain ⟨state,got,done⟩ := bind_eq_some_iff.mp done
    split at done
    · cases done
      exact adds _ _ _ _ _ got
    · cases done

theorem readi_total {pieces : List Piece} {ret : Int}
    (done : readi takeUnaligned takeAligned [] size off n = some (pieces,ret)) :
    let cut := cutRead off (clipRead size off n)
    total pieces = cut.small % 2 ^ 32 + cut.prepended % 2 ^ 32 + cut.aligned % 2 ^ 32 + cut.appended % 2 ^ 32 := by
  intro cut
  unfold readi at done
  split at done
  · cases done
  obtain ⟨r,got,same⟩ := map_eq_some_iff.mp done
  cases same
  obtain ⟨r₁,first,got⟩ := bind_eq_some_iff.mp got
  obtain ⟨r₂,second,got⟩ := bind_eq_some_iff.mp got
  obtain ⟨r₃,third,got⟩ := bind_eq_some_iff.mp got
  rw [readPiece_total takeUnaligned_adds got,readPiece_total takeAligned_adds third,
    readPiece_total takeUnaligned_adds second,readPiece_total takeUnaligned_adds first]
  simp [total,cut]

theorem wrapped_total (inside : off < size) (file : size < 2 ^ 64) (short : n < 2 ^ 32) (wraps : 2 ^ 64 ≤ off + n) :
    let cut := cutRead off (clipRead size off n)
    cut.small % 2 ^ 32 + cut.prepended % 2 ^ 32 + cut.aligned % 2 ^ 32 + cut.appended % 2 ^ 32 = n := by
  have block : gBlockSizeBytes = 4096 := rfl
  have ends : add64 off n = off + n - 2 ^ 64 := by
    unfold add64
    omega
  have clip : clipRead size off n = n := by
    unfold clipRead
    rw [ends,if_neg (by omega)]
  have first : (if off < align64 off then align64 off - off else 0) + (off + n - 2 ^ 64) % 4096 ≤ n ∧
      (if off < align64 off then align64 off - off else 0) < 4096 := by
    unfold align64 add64
    rw [block]
    split <;> omega
  have bound := Nat.mod_lt (off + n - 2 ^ 64) (by decide : 0 < 4096)
  intro cut
  have shape : cut = cutRead off n := by rw [←clip]
  rw [shape]
  unfold cutRead
  dsimp only
  rw [ends,appended_eq (by omega)]
  split
  · dsimp only
    omega
  split
  · dsimp only
    omega
  · dsimp only
    generalize (if off < align64 off then align64 off - off else 0) = prepended at *
    rw [block]
    unfold sub64
    omega

theorem cutRead_high {stop : Nat} (high : 2 ^ 64 - gBlockSizeBytes < off) (some : off < stop) (bound : stop < 2 ^ 64) :
    cutRead off (stop - off) = ⟨0,0,2 ^ 64 - off % gBlockSizeBytes,stop % gBlockSizeBytes⟩ := by
  have block : gBlockSizeBytes = 4096 := rfl
  have ends : add64 off (stop - off) = stop := by
    unfold add64
    omega
  have middle : sub64 (sub64 (stop - off) 0) (stop % gBlockSizeBytes) = 2 ^ 64 - off % gBlockSizeBytes := by
    unfold sub64
    rw [block] at high ⊢
    omega
  unfold cutRead
  dsimp only
  rw [ends,align64_high high (by omega),appended_eq bound,if_neg (by omega),if_neg (by omega),if_neg (by omega),middle]

theorem readi_high (inside : off < size) (file : size < 2 ^ 64) (some : 1 ≤ n) (short : n < 2 ^ 32) (stop : off + n < 2 ^ 64)
    (high : 2 ^ 64 - gBlockSizeBytes < off) : readi takeUnaligned takeAligned [] size off n = none := by
  have block : gBlockSizeBytes = 4096 := rfl
  have ends : off < readStop size off n ∧ readStop size off n < 2 ^ 64 := by
    unfold readStop
    omega
  have refused : ¬ (2 ^ 64 - off % gBlockSizeBytes) % 2 ^ 32 % gBlockSizeBytes = 0 := by
    rw [block] at high ⊢
    omega
  unfold readi
  rw [if_neg (not_le.mpr inside),clipRead_eq file inside short stop,cutRead_high high ends.1 ends.2]
  have none : readPiece takeAligned (2 ^ 64 - off % gBlockSizeBytes) ⟨[],off,0⟩ = Option.none := by
    unfold readPiece takeAligned
    rw [if_neg (by rw [block]; omega)]
    dsimp only
    rw [if_neg refused]
    rfl
  unfold readPieces
  dsimp only
  have skip : ∀ r : Reading (List Piece), readPiece takeUnaligned 0 r = Option.some r := fun _ => rfl
  rw [skip,bind_some,skip,bind_some,none]
  rfl

end Wrong

theorem readi_cuts_right {size off n : Nat} (file : size < 2 ^ 64) (inside : off < size) (some : 1 ≤ n) (short : n < 2 ^ 32) :
    CutsRight size off n ↔ off + n < 2 ^ 64 ∧ off ≤ 2 ^ 64 - gBlockSizeBytes ∧
      min (off + n) size / gBlockSizeBytes * gBlockSizeBytes < align off + 2 ^ 31 := by
  constructor
  · rintro ⟨pieces,ret,done,tiles,_⟩
    have stop : off + n < 2 ^ 64 := by
      by_contra wraps
      have sum := (readi_total done).trans (wrapped_total inside file short (by omega))
      have tiled : off + total pieces = min (off + n) size := tiles.sum
      omega
    have boundary : off ≤ 2 ^ 64 - gBlockSizeBytes := by
      by_contra high
      rw [readi_high inside file some short stop (Nat.lt_of_not_le high)] at done
      cases done
    refine ⟨stop,boundary,?_⟩
    have addressed : Addressed size off n := ⟨file,inside,some,short,stop,boundary⟩
    by_contra long
    by_cases within : Inside off (readStop size off n)
    · have near := (align_bounds off).1
      have less := within.bounds.2.2
      exact long (lt_of_le_of_lt less (by omega))
    · rw [(readi_blocks addressed within).2 (Nat.le_of_not_lt long)] at done
      cases done
  · rintro ⟨stop,boundary,fits⟩
    have addressed : Addressed size off n := ⟨file,inside,some,short,stop,boundary⟩
    by_cases within : Inside off (readStop size off n)
    · exact cutsRight_inside addressed within
    · exact cutsRight_blocks addressed within fits

theorem readi_cuts_right_at_end : CutsRight 10000 4000 9000 :=
  (readi_cuts_right (by decide) (by decide) (by decide) (by decide)).mpr (by decide)

-- A file that a seek has made 2 ^ 64 - 10 bytes long: the boundary behind the offset wraps.
theorem readi_aborts_at_wrap : ¬ CutsRight (2 ^ 64 - 10) (2 ^ 64 - 20) 5 := by
  rintro ⟨pieces,ret,done,_⟩
  have none : readi takeUnaligned takeAligned [] (2 ^ 64 - 10) (2 ^ 64 - 20) 5 = Option.none := by decide +kernel
  rw [none] at done
  cases done

end Assise.FileRead
