import Mathlib.Algebra.Ring.Nat
import Mathlib.Logic.Function.Basic
import Assise.Lib.Runs

-- The calls on open files: descriptors, sizes, and how a write is cut into the entries of its transaction. `none` stands
-- for a panic, a failed assertion or a call that does not return.
namespace Assise.OpenFiles

open Lib.Runs Option Function

def gBlockSizeBytes : Nat := 4096
def gMaxBlocksPerOperation : Nat := 4
def allocIoSize : Nat := 64 * 2 ^ 10
def maxIoSize : Nat := 128 * 2 ^ 20
def ioSizeLimit : Nat := 16384 * 1024

def align (x : Nat) : Nat := (x + (gBlockSizeBytes - 1)) / gBlockSizeBytes * gBlockSizeBytes

def pieces (limit : Nat) : Nat → Nat → List Nat
  | 0,_ => []
  | fuel + 1,left => if left = 0 then [] else min left limit :: pieces limit fuel (left - limit)

structure FileEntry where
  offset : Nat
  length : Nat
  base : Nat
deriving DecidableEq, Repr

structure FileTx where
  zeros : Bool
  entries : List FileEntry
deriving DecidableEq, Repr

def alignedEntries : Nat → Nat → List Nat → List FileEntry
  | _,_,[] => []
  | offset,base,size :: rest => ⟨offset,size,base⟩ :: alignedEntries (offset + size) (base + size) rest

def writeEntries (offset n : Nat) : List FileEntry :=
  if offset + n < align offset then
    if 0 < n then [⟨offset,n,0⟩] else []
  else
    let prepended := align offset - offset
    let appended := (offset + n) % gBlockSizeBytes
    let aligned := n - prepended - appended
    (if 0 < prepended then [⟨offset,prepended,0⟩] else []) ++
      alignedEntries (offset + prepended) prepended (pieces maxIoSize aligned aligned) ++
      (if 0 < appended then [⟨offset + n - appended,appended,n - appended⟩] else [])

-- `add_to_log` asserts that `off + size` does not wrap, `add_to_loghdr` that the header has room. The alignment of an
-- offset in the last 4095 bytes wraps.
def writeTx (zeros : Bool) (size n offset : Nat) : Option (Nat × FileTx) :=
  let entries := writeEntries offset n
  if gMaxBlocksPerOperation < entries.length ∨ (0 < n ∧ 2 ^ 64 ≤ offset + n) ∨ 2 ^ 64 - gBlockSizeBytes < offset then none
  else some (if 0 < n ∧ size < offset + n then offset + n else size,⟨zeros,entries⟩)

-- The call of `mlfs_file_write` passes the offset for the length and the length for the offset.
def mlfsFileFallocate (write : Nat → Nat → Nat → Option (Nat × List FileTx)) (size offset len : Nat) :
    Option (Nat × List FileTx) :=
  if size < offset then none
  else if size < offset + len then
    let len := len - (size - offset)
    ((pieces allocIoSize len len).foldlM (fun (now : Nat × Nat × List FileTx) ioSize =>
      (write now.1 now.2.1 ioSize).map fun (size,more) => (size,now.2.1 + now.2.1,now.2.2 ++ more)) (size,size,[])).map
      fun (size,_,txs) => (size,txs)
  else some (size,[])

-- A write behind the end of the file first extends it. `fuel` bounds the depth, and the loop's test is made again by the
-- recursive call.
def mlfsFileWrite : Nat → Bool → Nat → Nat → Nat → Option (Nat × List FileTx)
  | 0,_,_,_,_ => none
  | fuel + 1,zeros,size,n,offset =>
    if size < offset then
      (mlfsFileFallocate (mlfsFileWrite fuel true) size size (offset - size)).bind fun (size,txs) =>
        (mlfsFileWrite fuel zeros size n offset).map fun (size,more) => (size,txs ++ more)
    else (writeTx zeros size n offset).map fun (size,tx) => (size,[tx])

-- A write behind the end of an empty file asks for a write of no bytes behind the end: with any
-- fuel it does not return.
theorem sparse_write_of_empty_file (fuel : Nat) (zeros : Bool) (n offset : Nat) (behind : 0 < offset) :
    mlfsFileWrite fuel zeros 0 n offset = none := by
  induction fuel generalizing zeros n offset with
  | zero => rfl
  | succ fuel ih =>
    unfold mlfsFileWrite mlfsFileFallocate
    obtain ⟨rest,split⟩ : ∃ rest, pieces allocIoSize offset offset = min offset allocIoSize :: rest := by
      cases offset with
      | zero => cases behind
      | succ offset => exact ⟨_,rfl⟩
    have first : 0 < min offset allocIoSize := Nat.lt_min.mpr ⟨behind,by decide⟩
    simp [behind,split,ih true 0 _ first]

structure File where
  isInode : Bool
  readable : Bool
  writable : Bool
  ip : Nat
  off : UInt64
deriving DecidableEq, Repr

structure State where
  files : Nat → Option File
  size : Nat → UInt64

inductive Origin where
  | seekSet
  | seekCur
  | seekEnd
  | other
deriving DecidableEq, Repr

inductive Call where
  | read (fd : Nat) (count : Int32)
  | write (fd count : Nat)
  | pread (fd : Nat) (count : Int32) (off : UInt64)
  | pwrite (fd count : Nat) (off : UInt64)
  | lseek (fd : Nat) (offset : Int64) (origin : Origin)
deriving DecidableEq, Repr

def ebadf : Int := 9
def eperm : Int := 1

-- `readi` takes a 32-bit size and clamps it to the file; a sum that is negative as an `int` panics.
def readi (size off : UInt64) (ioSize : UInt32) : Option Nat :=
  let ioSize := if size < off + ioSize.toUInt64 then size.toNat - off.toNat else ioSize.toNat
  if ioSize < 2 ^ 31 then some ioSize else none

def mlfsFileReadOffset (s : State) (f : File) (count : Int32) (off : UInt64) : Option Int :=
  if f.readable = false then some (-eperm)
  else if f.isInode = false then none
  else if s.size f.ip ≤ off then some 0
  else (readi (s.size f.ip) off count.toUInt32).map Int.ofNat

def setOff (s : State) (fd : Nat) (f : File) (off : UInt64) : State :=
  {s with files := update s.files fd (some {f with off := off})}

def mlfsPosixRead (s : State) (fd : Nat) (count : Int32) : Option (Int × State) :=
  (s.files fd).bind fun f => (mlfsFileReadOffset s f count f.off).map fun ret =>
    (ret,if 0 < ret then setOff s fd f (f.off + UInt64.ofNat ret.toNat) else s)

def mlfsPosixPread64 (s : State) (fd : Nat) (count : Int32) (off : UInt64) : Option (Int × State) :=
  (s.files fd).bind fun f => (mlfsFileReadOffset s f count off).map fun ret => (ret,s)

-- The common text of `mlfs_posix_write` and `mlfs_posix_pwrite64`, which write at different
-- offsets: both then move the descriptor's.
def writeAt (fuel : Nat) (s : State) (fd : Nat) (f : File) (count : Nat) (off : UInt64) : Option (Int × State) :=
  if ioSizeLimit < count then none
  else if f.writable = false then some (-eperm,s)
  else if f.isInode = false then none
  else (mlfsFileWrite fuel false (s.size f.ip).toNat count off.toNat).map fun (size,_) =>
    let written := {s with size := update s.size f.ip (UInt64.ofNat size)}
    (count,if 0 < count then setOff written fd f (f.off + UInt64.ofNat count) else written)

def mlfsPosixWrite (fuel : Nat) (s : State) (fd count : Nat) : Option (Int × State) :=
  (s.files fd).bind fun f => writeAt fuel s fd f count f.off

def mlfsPosixPwrite64 (fuel : Nat) (s : State) (fd count : Nat) (off : UInt64) : Option (Int × State) :=
  (s.files fd).bind fun f => writeAt fuel s fd f count off

def mlfsPosixLseek (s : State) (fd : Nat) (offset : Int64) (origin : Origin) : Int × State :=
  match s.files fd with
  | none => (-ebadf,s)
  | some f =>
    let (off,size) :=
      match origin with
      | .seekSet => (offset.toUInt64,s.size f.ip)
      | .seekCur => (f.off + offset.toUInt64,s.size f.ip)
      | .seekEnd => (s.size f.ip + offset.toUInt64,s.size f.ip + offset.toUInt64)
      | .other => (f.off,s.size f.ip)
    (off.toUInt32.toInt32.toInt,setOff {s with size := update s.size f.ip size} fd f off)

def call (fuel : Nat) (s : State) : Call → Option (Int × State)
  | .read fd count => mlfsPosixRead s fd count
  | .write fd count => mlfsPosixWrite fuel s fd count
  | .pread fd count off => mlfsPosixPread64 s fd count off
  | .pwrite fd count off => mlfsPosixPwrite64 fuel s fd count off
  | .lseek fd offset origin => some (mlfsPosixLseek s fd offset origin)

def step (fuel : Nat) (s : State) (c : Call) : Option State := (call fuel s c).map Prod.snd

def State.off (s : State) (fd : Nat) : Option UInt64 := (s.files fd).map File.off

-- What a call must leave alone: the size of every file by a seek, the descriptor's offset by a
-- positioned call, and the offset moves by what was transferred otherwise.
def Framed (s : State) (ret : Int) (next : State) : Call → Prop
  | .lseek _ _ _ => next.size = s.size
  | .pread fd _ _ | .pwrite fd _ _ => next.off fd = s.off fd
  | .read fd _ | .write fd _ => next.off fd = (s.off fd).map (· + UInt64.ofNat ret.toNat)

def Harmless (s : State) : Call → Prop
  | .lseek fd offset .seekEnd => s.files fd = none ∨ offset = 0
  | .pwrite fd count _ => count = 0 ∨ ∃ f, s.files fd = some f ∧ f.writable = false
  | _ => True

theorem setOff_off (s : State) (fd : Nat) (f : File) (off : UInt64) : (setOff s fd f off).off fd = some off := by
  simp [setOff,State.off]

theorem setOff_size (s : State) (fd : Nat) (f : File) (off : UInt64) : (setOff s fd f off).size = s.size := rfl

variable {ret : Int} {next s : State} {fuel count : Nat}

variable {fd : Nat} {off : UInt64}

theorem off_opened {f : File} (opened : s.files fd = some f) : s.off fd = some f.off := by simp [State.off,opened]

theorem read_framed {count : Int32}
    (returned : mlfsPosixRead s fd count = some (ret,next)) : Framed s ret next (.read fd count) := by
  obtain ⟨f,opened,done⟩ := bind_eq_some_iff.mp returned
  obtain ⟨got,_,same⟩ := map_eq_some_iff.mp done
  cases same
  have before := off_opened opened
  simp only [Framed,before,map_some]
  split
  · exact setOff_off ..
  · rename_i nothing
    have zero : ret.toNat = 0 := Int.toNat_of_nonpos (Int.not_lt.mp nothing)
    simp [zero,before]

theorem writeAt_off {f : File}
    (opened : s.files fd = some f) (returned : writeAt fuel s fd f count off = some (ret,next)) :
    next.off fd = some (f.off + UInt64.ofNat ret.toNat) ∧ ret.toNat = if f.writable = false then 0 else count := by
  have before := off_opened opened
  unfold writeAt at returned
  split at returned
  · cases returned
  split at returned
  · rename_i readOnly
    cases returned
    have zero : (-eperm).toNat = 0 := rfl
    simp [before,zero,readOnly]
  split at returned
  · cases returned
  rename_i writable _
  obtain ⟨⟨size,txs⟩,_,same⟩ := map_eq_some_iff.mp returned
  cases same
  refine ⟨?_,by rw [if_neg writable]; rfl⟩
  split
  · exact setOff_off ..
  · rename_i nothing
    have zero : count = 0 := Nat.eq_zero_of_not_pos nothing
    subst zero
    exact before.trans (by simp)

theorem ofNat_eq_zero (limited : count ≤ ioSizeLimit) : UInt64.ofNat count = 0 ↔ count = 0 := by
  constructor
  · intro zero
    have value := congrArg UInt64.toNat zero
    have small : count < 2 ^ 64 := Nat.lt_of_le_of_lt limited (by decide)
    rw [UInt64.toNat_ofNat_of_lt' small] at value
    exact value
  · rintro rfl
    rfl

theorem writeAt_limited {f : File} {result : Int × State}
    (returned : writeAt fuel s fd f count off = some result) : count ≤ ioSizeLimit := by
  unfold writeAt at returned
  split at returned
  · cases returned
  · rename_i within
    exact Nat.le_of_not_lt within

theorem pwrite_framed_iff
    (returned : mlfsPosixPwrite64 fuel s fd count off = some (ret,next)) :
    Framed s ret next (.pwrite fd count off) ↔ Harmless s (.pwrite fd count off) := by
  obtain ⟨f,opened,written⟩ := bind_eq_some_iff.mp returned
  obtain ⟨after,transferred⟩ := writeAt_off opened written
  have limited := writeAt_limited written
  have before := off_opened opened
  simp only [Framed,Harmless,after,before,Option.some.injEq,opened,exists_eq_left']
  rw [transferred]
  cases writable : f.writable with
  | false => simp
  | true => simp [UInt64.add_eq_left,ofNat_eq_zero limited]

theorem lseek_framed_iff (s : State) (fd : Nat) (offset : Int64) (origin : Origin) :
    Framed s (mlfsPosixLseek s fd offset origin).1 (mlfsPosixLseek s fd offset origin).2 (.lseek fd offset origin) ↔
      Harmless s (.lseek fd offset origin) := by
  unfold mlfsPosixLseek
  cases opened : s.files fd with
  | none => cases origin <;> simp [Framed,Harmless,opened]
  | some f =>
    have kept : ∀ size, update s.size f.ip size = s.size ↔ size = s.size f.ip := fun size =>
      update_eq_self_iff
    cases origin with
    | seekEnd =>
      simp only [Framed,Harmless,setOff_size,kept,opened,reduceCtorEq,false_or]
      constructor
      · intro same
        have zero : offset.toUInt64 = 0 := by simpa using same
        cases offset
        exact congrArg Int64.ofUInt64 zero
      · rintro rfl
        exact UInt64.add_eq_left.mpr rfl
    | seekSet | seekCur | other => simp [Framed,Harmless,setOff_size]

theorem call_framed_iff {c : Call} (returned : call fuel s c = some (ret,next)) :
    Framed s ret next c ↔ Harmless s c := by
  cases c with
  | read fd count => exact ⟨fun _ => trivial,fun _ => read_framed returned⟩
  | write fd count =>
    refine ⟨fun _ => trivial,fun _ => ?_⟩
    obtain ⟨f,opened,written⟩ := bind_eq_some_iff.mp returned
    obtain ⟨after,_⟩ := writeAt_off opened written
    have before := off_opened opened
    simp only [Framed,after,before,map_some]
  | pread fd count off =>
    refine ⟨fun _ => trivial,fun _ => ?_⟩
    obtain ⟨f,_,done⟩ := bind_eq_some_iff.mp returned
    obtain ⟨_,_,same⟩ := map_eq_some_iff.mp done
    cases same
    exact rfl
  | pwrite fd count off => exact pwrite_framed_iff returned
  | lseek fd offset origin =>
    have same : mlfsPosixLseek s fd offset origin = (ret,next) := Option.some.inj returned
    have framed := lseek_framed_iff s fd offset origin
    rw [same] at framed
    exact framed

def FramedCall (fuel : Nat) (s : State) (c : Call) : Prop :=
  ∀ ret next, call fuel s c = some (ret,next) → Framed s ret next c

theorem calls_framed_iff (fuel : Nat) (s final : State) (calls : List Call) (ran : run (step fuel) s calls = some final) :
    Guarded (step fuel) (FramedCall fuel) s calls ↔ Guarded (step fuel) Harmless s calls := by
  refine guarded_iff (fun now c next stepped => ?_) ran
  obtain ⟨⟨ret,after⟩,returned,rfl⟩ := map_eq_some_iff.mp stepped
  have framed := call_framed_iff returned
  constructor
  · intro all
    exact framed.mp (all ret after returned)
  · intro harmless ret' after' returned'
    cases returned.symm.trans returned'
    exact framed.mpr harmless

def opened : State := ⟨fun fd => if fd = 3 then some ⟨true,true,true,7,0⟩ else none,fun _ => 100⟩

def mixedCalls : List Call :=
  [.read 3 40,.write 3 10,.pread 3 20 5,.lseek 3 0 .seekEnd,.pwrite 3 0 8,.lseek 3 (-30) .seekCur,.read 3 1000]

theorem calls_framed_iff_mixed : ∃ final, run (step 5) opened mixedCalls = some final ∧ final.off 3 = some 100 ∧
    (Guarded (step 5) (FramedCall 5) opened mixedCalls ↔ Guarded (step 5) Harmless opened mixedCalls) := by
  obtain ⟨final,ran,fact⟩ : ∃ final, run (step 5) opened mixedCalls = some final ∧ final.off 3 = some 100 := by decide +kernel
  exact ⟨final,ran,fact,calls_framed_iff 5 opened final mixedCalls ran⟩

-- A seek 50 bytes behind the end makes the file 150 bytes long, and a positioned write moves the descriptor.
theorem seek_and_pwrite_not_framed :
    (mlfsPosixLseek opened 3 50 .seekEnd).2.size 7 = 150 ∧ ¬ FramedCall 5 opened (.lseek 3 50 .seekEnd) ∧
      (∃ ret next, call 5 opened (.pwrite 3 10 20) = some (ret,next) ∧ opened.off 3 = some 0 ∧ next.off 3 = some 10) ∧
      ¬ FramedCall 5 opened (.pwrite 3 10 20) := by
  obtain ⟨ret,next,returned,moved⟩ : ∃ ret next, call 5 opened (.pwrite 3 10 20) = some (ret,next) ∧ next.off 3 = some 10 := by
    decide +kernel
  refine ⟨by decide,fun framed => ?_,⟨ret,next,returned,rfl,moved⟩,fun framed => ?_⟩
  · have size := congrFun (framed _ _ rfl) 7
    exact absurd size (by decide)
  · have offset : next.off 3 = opened.off 3 := framed ret next returned
    rw [moved] at offset
    exact absurd offset (by decide)

end Assise.OpenFiles
