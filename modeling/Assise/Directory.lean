import Assise.Lib.Runs
import Mathlib.Data.List.Nodup
import Mathlib.Logic.Function.Basic
import Mathlib.Tactic

-- A directory of LibFS: the file of its entries and the cache of those that lookups have met. The number of cached
-- entries is taken to tell how much of the file it covers.
namespace Assise.Directory
open Lib.Runs Function
open List hiding beq_eq_decide

def dirsiz : Nat := 28
def direntSize : Nat := 32

abbrev CString := List UInt8

def dot : CString := [46]
def dotDot : CString := [46,46]

def strncpy (s : CString) (n : Nat) : CString := s.take n
def strncmp (s t : CString) (n : Nat) : Bool := s.take n == t.take n

def namecmp (s t : CString) : Bool := strncmp s t dirsiz

structure Dirent where
  inum : Nat
  name : CString
deriving DecidableEq, Repr

-- An inode is named by its number: `icache_find` and `iget` return the one inode that has it.
structure DirentData where
  inum : Nat
  offset : Nat
deriving DecidableEq, Repr

-- `entries` are the slots of the directory file behind "." and "..", which `dir_add_links`
-- writes and no operation on an entry reads or moves.
structure DirInode where
  entries : List Dirent
  deCache : CString → Option DirentData
  nDeCacheEntry : Nat

def DirInode.size (dir : DirInode) : Nat := (dir.entries.length + 2) * direntSize

def offsetOf (slot : Nat) : Nat := (slot + 2) * direntSize
def slotOf (offset : Nat) : Nat := offset / direntSize - 2

def getDirent (dir : DirInode) (offset : Nat) : Option Dirent :=
  if offset ≥ dir.size then none else dir.entries[slotOf offset]?

def addToLog (dir : DirInode) (offset : Nat) (de : Dirent) : DirInode :=
  if offset < dir.size then {dir with entries := dir.entries.set (slotOf offset) de}
  else {dir with entries := dir.entries ++ [de]}

def itrunc (dir : DirInode) (length : Nat) : DirInode :=
  {dir with entries := dir.entries.take (slotOf length)}

def deCacheFind (dir : DirInode) (name : CString) : Option DirentData := dir.deCache name

def deCacheAdd (dir : DirInode) (name : CString) (inum offset : Nat) : DirInode :=
  if strncmp name dot dirsiz || strncmp name dotDot dirsiz then dir
  else {dir with deCache := update dir.deCache name (some ⟨inum,offset⟩),nDeCacheEntry := dir.nDeCacheEntry + 1}

def deCacheDel (dir : DirInode) (name : CString) : DirInode :=
  match dir.deCache name with
  | none => dir
  | some _ => {dir with deCache := update dir.deCache name none,nDeCacheEntry := dir.nDeCacheEntry - 1}

def scan (name : CString) : DirInode → Nat → List Dirent → DirInode × Option DirentData
  | dir,_,[] => (dir,none)
  | dir,offset,de :: rest =>
    let cached := deCacheAdd dir de.name de.inum offset
    if namecmp name de.name then (cached,some ⟨de.inum,offset⟩)
    else scan name cached (offset + direntSize) rest

def dirLookup (dir : DirInode) (name : CString) : DirInode × Option DirentData :=
  match deCacheFind dir name with
  | some found => (dir,some found)
  | none =>
    let nDeCache := dir.nDeCacheEntry + 2
    if nDeCache * direntSize = dir.size then (dir,none)
    else scan name dir (nDeCache * direntSize) (dir.entries.drop (nDeCache - 2))

def dirChangeEntry (dir : DirInode) (oldname newname : CString) : DirInode × Bool :=
  match dirLookup dir oldname with
  | (dir,none) => (dir,false)
  | (dir,some found) =>
    let dir := deCacheDel dir oldname
    let dir := addToLog dir found.offset ⟨found.inum,strncpy newname dirsiz⟩
    (deCacheAdd dir newname found.inum found.offset,true)

def removeFound (dir : DirInode) (name : CString) (deOff : Nat) : DirInode :=
  let dir := deCacheDel dir name
  let lastOff := dir.size - direntSize
  let dir :=
    if deOff < lastOff then
      let last := (getDirent dir lastOff).getD ⟨0,[]⟩
      let dir := deCacheDel dir last.name
      let dir := addToLog dir deOff last
      deCacheAdd dir last.name last.inum deOff
    else dir
  itrunc dir lastOff

def dirRemoveEntry (dir : DirInode) (name : CString) : DirInode × Option Nat :=
  match dirLookup dir name with
  | (dir,none) => (dir,none)
  | (dir,some found) => (removeFound dir name found.offset,some found.inum)

def dirAddEntry (dir : DirInode) (name : CString) (inum : Nat) : DirInode :=
  let offset := dir.size
  deCacheAdd (addToLog dir offset ⟨inum,strncpy name dirsiz⟩) name inum offset

-- `mlfs_object_create` adds a name it has looked up without success.
def mlfsObjectCreate (dir : DirInode) (name : CString) (inum : Nat) : DirInode :=
  match dirLookup dir name with
  | (dir,some _) => dir
  | (dir,none) => dirAddEntry dir name inum

structure EntryName where
  chars : CString
  short : chars.length < dirsiz
  noLink : chars ≠ dot ∧ chars ≠ dotDot
deriving DecidableEq

def Entry (name : CString) : Prop := name.length < dirsiz ∧ name ≠ dot ∧ name ≠ dotDot

instance (name : CString) : Decidable (Entry name) := by
  unfold Entry
  infer_instance

theorem EntryName.entry (name : EntryName) : Entry name.chars := ⟨name.short,name.noLink⟩

variable {name : CString} {entries back front : List Dirent} {data : DirentData} {de old last : Dirent} {dir : DirInode}
    {cache : CString → Option DirentData} {count : Nat}

theorem strncpy_entry (entry : Entry name) : strncpy name dirsiz = name :=
  take_of_length_le entry.1.le

theorem strncmp_short {s t : CString} {n : Nat} (left : s.length ≤ n) (right : t.length ≤ n) :
    strncmp s t n = decide (s = t) := by
  unfold strncmp
  rw [take_of_length_le left,take_of_length_le right,beq_eq_decide]

theorem namecmp_entry {s t : CString} (left : s.length < dirsiz) (right : Entry t) : namecmp s t = decide (s = t) :=
  strncmp_short left.le right.1.le

theorem not_link (entry : Entry name) :
    (strncmp name dot dirsiz || strncmp name dotDot dirsiz) = false := by
  rw [strncmp_short entry.1.le (by decide),strncmp_short entry.1.le (by decide),decide_eq_false entry.2.1,
    decide_eq_false entry.2.2]
  rfl

theorem deCacheAdd_entry (dir : DirInode) (entry : Entry name) (inum offset : Nat) :
    deCacheAdd dir name inum offset =
      {dir with deCache := update dir.deCache name (some ⟨inum,offset⟩),nDeCacheEntry := dir.nDeCacheEntry + 1} := by
  unfold deCacheAdd
  rw [not_link entry]
  rfl

def positionFrom : Nat → List Dirent → CString → Option DirentData
  | _,[],_ => none
  | offset,de :: rest,name =>
    if de.name = name then some ⟨de.inum,offset⟩ else positionFrom (offset + direntSize) rest name

def position (entries : List Dirent) (name : CString) : Option DirentData := positionFrom (offsetOf 0) entries name

def names (entries : List Dirent) : List CString := entries.map Dirent.name

theorem positionFrom_append (offset : Nat) (front back : List Dirent) (name : CString) :
    positionFrom offset (front ++ back) name =
      (positionFrom offset front name).or (positionFrom (offset + front.length * direntSize) back name) := by
  induction front generalizing offset with
  | nil => simp [positionFrom]
  | cons de rest ih =>
    by_cases same : de.name = name
    · simp [positionFrom,same]
    · have next : offset + direntSize + rest.length * direntSize = offset + (de :: rest).length * direntSize := by
        simp only [length_cons]
        ring
      simp only [cons_append,positionFrom,same,if_false,ih,next]

theorem position_append (front back : List Dirent) (name : CString) :
    position (front ++ back) name = (position front name).or (positionFrom (offsetOf front.length) back name) := by
  have next : offsetOf 0 + front.length * direntSize = offsetOf front.length := by
    unfold offsetOf
    ring
  rw [position,position,positionFrom_append,next]

theorem positionFrom_none {offset : Nat} :
    positionFrom offset entries name = none ↔ name ∉ names entries := by
  induction entries generalizing offset with
  | nil => simp [positionFrom,names]
  | cons de rest ih =>
    by_cases same : de.name = name
    · simp [positionFrom,names,same]
    · have other : name ≠ de.name := fun eq => same eq.symm
      simp only [positionFrom,same,if_false,ih,names,map_cons,mem_cons,other,false_or]

theorem position_none : position entries name = none ↔ name ∉ names entries :=
  positionFrom_none

theorem positionFrom_split {offset : Nat}
    (found : positionFrom offset entries name = some data) :
    ∃ front back, entries = front ++ ⟨data.inum,name⟩ :: back ∧ data.offset = offset + front.length * direntSize := by
  induction entries generalizing offset with
  | nil => cases found
  | cons de rest ih =>
    by_cases same : de.name = name
    · simp only [positionFrom,same,if_true,Option.some.injEq] at found
      subst found same
      exact ⟨[],rest,rfl,by simp⟩
    · simp only [positionFrom,same,if_false] at found
      obtain ⟨front,back,rfl,at_⟩ := ih found
      refine ⟨de :: front,back,rfl,?_⟩
      rw [at_,length_cons]
      ring

theorem position_split
    (found : position entries name = some data) :
    ∃ front back, entries = front ++ ⟨data.inum,name⟩ :: back ∧ data.offset = offsetOf front.length := by
  obtain ⟨front,back,split,at_⟩ := positionFrom_split found
  refine ⟨front,back,split,?_⟩
  rw [at_,offsetOf,offsetOf]
  ring

theorem position_here (apart : de.name ∉ names front) :
    position (front ++ de :: back) de.name = some ⟨de.inum,offsetOf front.length⟩ := by
  rw [position_append,position_none.mpr apart]
  simp [positionFrom]

theorem position_replaced {new : Dirent}
    (notOld : name ≠ old.name) (notNew : name ≠ new.name) :
    position (front ++ new :: back) name = position (front ++ old :: back) name := by
  rw [position_append,position_append,positionFrom,positionFrom,if_neg (Ne.symm notOld),if_neg (Ne.symm notNew)]

theorem position_snoc (other : name ≠ de.name) :
    position (front ++ [de]) name = position front name := by
  rw [position_append,positionFrom,if_neg (Ne.symm other)]
  simp [positionFrom]

@[simp] theorem slotOf_offsetOf (slot : Nat) : slotOf (offsetOf slot) = slot := by
  unfold slotOf offsetOf
  rw [Nat.mul_div_cancel _ (by decide : 0 < direntSize)]
  rfl

theorem offsetOf_lt_size {slot : Nat} : offsetOf slot < dir.size ↔ slot < dir.entries.length := by
  unfold offsetOf DirInode.size
  rw [Nat.mul_lt_mul_right (by decide : 0 < direntSize)]
  omega

-- The names of the file are distinct entry names, and the cache holds exactly the entries
-- of the first `n_de_cache_entry` slots.
structure PartlyCached (dir : DirInode) : Prop where
  distinct : (names dir.entries).Nodup
  proper : ∀ de ∈ dir.entries, Entry de.name
  within : dir.nDeCacheEntry ≤ dir.entries.length
  cached : ∀ name, dir.deCache name = position (dir.entries.take dir.nDeCacheEntry) name

def fullCache (dir : DirInode) : Prop := (dir.nDeCacheEntry + 2) * direntSize = dir.size

instance (dir : DirInode) : Decidable (fullCache dir) := by
  unfold fullCache
  infer_instance

theorem fullCache_iff : fullCache dir ↔ dir.nDeCacheEntry = dir.entries.length := by
  unfold fullCache DirInode.size
  rw [Nat.mul_left_inj (by decide : direntSize ≠ 0)]
  omega

def loaded (entries : List Dirent) : DirInode := ⟨entries,fun _ => none,0⟩

theorem loaded_partlyCached (distinct : (names entries).Nodup)
    (proper : ∀ de ∈ entries, Entry de.name) : PartlyCached (loaded entries) :=
  ⟨distinct,proper,Nat.zero_le _,fun _ => rfl⟩

theorem PartlyCached.of_split
    (distinct : (names (front ++ back)).Nodup) (proper : ∀ de ∈ front ++ back, Entry de.name)
    (cached : ∀ name, cache name = position front name) : PartlyCached ⟨front ++ back,cache,front.length⟩ :=
  ⟨distinct,proper,by simp,fun name => by simpa using cached name⟩

theorem PartlyCached.cached_split
    (partly : PartlyCached ⟨front ++ back,cache,front.length⟩) (name : CString) : cache name = position front name := by
  simpa only [take_left'] using partly.cached name

theorem apart_of_nodup (distinct : (names (front ++ de :: back)).Nodup) :
    de.name ∉ names front ∧ de.name ∉ names back := by
  simp only [names,map_append,map_cons] at distinct ⊢
  obtain ⟨_,right,disjoint⟩ := nodup_append.mp distinct
  exact ⟨fun left => disjoint _ left _ mem_cons_self rfl,(nodup_cons.mp right).1⟩

theorem PartlyCached.addNext
    (dir : PartlyCached ⟨front ++ de :: back,cache,front.length⟩) :
    deCacheAdd ⟨front ++ de :: back,cache,front.length⟩ de.name de.inum (offsetOf front.length) =
        ⟨front ++ [de] ++ back,update cache de.name (some ⟨de.inum,offsetOf front.length⟩),(front ++ [de]).length⟩ ∧
      PartlyCached ⟨front ++ [de] ++ back,update cache de.name (some ⟨de.inum,offsetOf front.length⟩),(front ++ [de]).length⟩ := by
  have whole : front ++ de :: back = front ++ [de] ++ back := by simp
  have apart := (apart_of_nodup dir.distinct).1
  constructor
  · rw [deCacheAdd_entry _ (dir.proper de (by simp))]
    simp
  · refine .of_split (whole ▸ dir.distinct) (whole ▸ dir.proper) fun name => ?_
    by_cases same : name = de.name
    · subst same
      rw [update_self,position_here apart]
    · have before := dir.cached_split name
      rw [update_of_ne same,position_snoc same,before]

structure LookedUp (dir dir' : DirInode) (name : CString) (found : Option DirentData) : Prop where
  entries : dir'.entries = dir.entries
  partly : PartlyCached dir'
  result : found = position dir.entries name
  cached : ∀ data, found = some data → dir'.deCache name = some data
  missed : found = none → fullCache dir'

theorem scan_lookedUp (short : name.length < dirsiz) (back : List Dirent) :
    ∀ {front : List Dirent} {cache : CString → Option DirentData},
      PartlyCached ⟨front ++ back,cache,front.length⟩ → cache name = none →
      LookedUp ⟨front ++ back,cache,front.length⟩ (scan name ⟨front ++ back,cache,front.length⟩ (offsetOf front.length) back).1
        name (scan name ⟨front ++ back,cache,front.length⟩ (offsetOf front.length) back).2 := by
  induction back with
  | nil =>
    intro front cache partly missing
    have before := partly.cached_split name
    refine ⟨rfl,partly,?_,fun data found => (by cases found),fun _ => fullCache_iff.mpr (by simp [scan])⟩
    rw [scan,append_nil,← before,missing]
  | cons de rest ih =>
    intro front cache partly missing
    obtain ⟨added,partly'⟩ := partly.addNext
    have proper := partly.proper de (by simp)
    have apart := (apart_of_nodup partly.distinct).1
    have whole : front ++ [de] ++ rest = front ++ de :: rest := by simp
    rw [scan,added,namecmp_entry short proper]
    by_cases same : name = de.name
    · subst same
      simp only [decide_true,if_true]
      refine ⟨whole,partly',(position_here apart).symm,fun data found => ?_,fun none => by cases none⟩
      cases found
      exact update_self ..
    · have next : offsetOf front.length + direntSize = offsetOf (front ++ [de]).length := by
        simp only [offsetOf,length_append,length_singleton]
        ring
      simp only [same,decide_false,Bool.false_eq_true,if_false,next]
      have later := ih partly' (by rw [update_of_ne same,missing])
      exact ⟨later.entries.trans whole,later.partly,by rw [← whole]; exact later.result,later.cached,later.missed⟩

theorem PartlyCached.split (partly : PartlyCached dir) :
    dir = ⟨dir.entries.take dir.nDeCacheEntry ++ dir.entries.drop dir.nDeCacheEntry,dir.deCache,
      (dir.entries.take dir.nDeCacheEntry).length⟩ := by
  have covered : (dir.entries.take dir.nDeCacheEntry).length = dir.nDeCacheEntry := by simp [partly.within]
  rw [take_append_drop,covered]

theorem dirLookup_lookedUp (partly : PartlyCached dir) (short : name.length < dirsiz) :
    LookedUp dir (dirLookup dir name).1 name (dirLookup dir name).2 := by
  unfold dirLookup deCacheFind
  have cached := partly.cached name
  cases hit : dir.deCache name with
  | some data =>
    refine ⟨rfl,partly,?_,fun _ found => hit.trans found,fun none => by cases none⟩
    rw [← take_append_drop dir.nDeCacheEntry dir.entries,position_append,← cached,hit]
    rfl
  | none =>
    dsimp only
    split
    · rename_i full
      refine ⟨rfl,partly,?_,fun data found => (by cases found),fun _ => full⟩
      have all : dir.entries.take dir.nDeCacheEntry = dir.entries := by
        rw [fullCache_iff.mp full,take_length]
      rw [← all,← cached,hit]
    · have covered : (dir.entries.take dir.nDeCacheEntry).length = dir.nDeCacheEntry := by simp [partly.within]
      have same := partly.split
      have scanned := scan_lookedUp short (dir.entries.drop dir.nDeCacheEntry) (same ▸ partly) hit
      rw [← same,covered] at scanned
      exact scanned

theorem PartlyCached.covered (partly : PartlyCached dir)
    (hit : dir.deCache name = some data) :
    ∃ front old covered back cache, dir = ⟨front ++ old :: covered ++ back,cache,(front ++ old :: covered).length⟩ ∧
      old.name = name ∧ data = ⟨old.inum,offsetOf front.length⟩ := by
  rw [partly.cached name] at hit
  obtain ⟨front,covered,split,at_⟩ := position_split hit
  refine ⟨front,⟨data.inum,name⟩,covered,dir.entries.drop dir.nDeCacheEntry,dir.deCache,?_,rfl,?_⟩
  · rw [← split]
    exact partly.split
  · rw [← at_]

theorem deCacheDel_cached (hit : dir.deCache name = some data) :
    deCacheDel dir name = {dir with deCache := update dir.deCache name none,nDeCacheEntry := dir.nDeCacheEntry - 1} := by
  unfold deCacheDel
  rw [hit]

theorem deCacheDel_eq (dir : DirInode) (name : CString) :
    deCacheDel dir name = ⟨dir.entries,update dir.deCache name none,
      if (dir.deCache name).isSome then dir.nDeCacheEntry - 1 else dir.nDeCacheEntry⟩ := by
  unfold deCacheDel
  cases hit : dir.deCache name with
  | none =>
    have same : update dir.deCache name none = dir.deCache := update_eq_self_iff.mpr hit.symm
    rw [same]
    rfl
  | some data => rfl

theorem addToLog_slot (front back : List Dirent) (old new : Dirent) (cache : CString → Option DirentData) (count : Nat) :
    addToLog ⟨front ++ old :: back,cache,count⟩ (offsetOf front.length) new = ⟨front ++ new :: back,cache,count⟩ := by
  unfold addToLog
  rw [if_pos (offsetOf_lt_size.mpr (by simp)),slotOf_offsetOf]
  simp

variable {covered : List Dirent}

theorem PartlyCached.replace {new : Dirent} {cache' : CString → Option DirentData}
    (partly : PartlyCached ⟨front ++ old :: covered ++ back,cache,(front ++ old :: covered).length⟩) (entry : Entry new.name)
    (fresh : new.name ∉ names (front ++ covered ++ back))
    (moved : ∀ name, name ≠ old.name → name ≠ new.name → cache' name = cache name)
    (gone : old.name ≠ new.name → cache' old.name = none)
    (here : cache' new.name = some ⟨new.inum,offsetOf front.length⟩) :
    PartlyCached ⟨front ++ new :: covered ++ back,cache',(front ++ new :: covered).length⟩ := by
  have distinct : (names (front ++ new :: covered ++ back)).Nodup := by
    have before := partly.distinct
    simp only [names,map_append,map_cons,append_assoc,cons_append] at before fresh ⊢
    rw [nodup_middle] at before ⊢
    refine nodup_cons.mpr ⟨?_,(nodup_cons.mp before).2⟩
    simpa using fresh
  refine .of_split distinct ?_ fun name => ?_
  · intro de listed
    simp only [append_assoc,cons_append,mem_append,mem_cons] at listed
    have proper := partly.proper de
    simp only [append_assoc,cons_append,mem_append,mem_cons] at proper
    rcases listed with inFront | rfl | inRest
    · exact proper (.inl inFront)
    · exact entry
    · exact proper (.inr (.inr inRest))
  · have apart : new.name ∉ names front := fun listed => fresh (by
      simp only [names,map_append,mem_append] at listed ⊢
      exact .inl (.inl listed))
    have cached := partly.cached_split name
    by_cases isNew : name = new.name
    · subst isNew
      rw [here,position_here apart]
    · by_cases isOld : name = old.name
      · subst isOld
        rw [gone isNew,eq_comm,position_none]
        have once : old.name ∉ names front ∧ old.name ∉ names (covered ++ back) :=
          apart_of_nodup (append_assoc front (old :: covered) back ▸ partly.distinct)
        intro listed
        simp only [names,map_append,map_cons,mem_append,mem_cons] at listed once
        rcases listed with inFront | same | inRest
        · exact once.1 inFront
        · exact isNew same
        · exact once.2 (Or.inl inRest)
      · rw [moved name isOld isNew,cached,position_replaced isOld isNew]

theorem names_append (front back : List Dirent) : names (front ++ back) = names front ++ names back := map_append

theorem PartlyCached.dropCached
    (partly : PartlyCached ⟨front ++ [last],cache,(front ++ [last]).length⟩) :
    PartlyCached ⟨front,update cache last.name none,front.length⟩ := by
  have apart := (apart_of_nodup partly.distinct).1
  refine ⟨?_,fun de listed => partly.proper de (mem_append_left _ listed),le_refl _,fun name => ?_⟩
  · exact (nodup_append.mp (names_append front [last] ▸ partly.distinct)).1
  · have cached : cache name = position (front ++ [last]) name := by
      simpa only [take_length] using partly.cached name
    change update cache last.name none name = position (front.take front.length) name
    rw [take_length]
    by_cases same : name = last.name
    · rw [same,update_self,eq_comm,position_none]
      exact apart
    · rw [update_of_ne same,cached,position_snoc same]

theorem PartlyCached.dropUncached
    (partly : PartlyCached ⟨front ++ (back ++ [last]),cache,front.length⟩) :
    PartlyCached ⟨front ++ back,cache,front.length⟩ ∧ cache last.name = none := by
  have longer : front ++ (back ++ [last]) = front ++ back ++ [last] := (append_assoc ..).symm
  have distinct := partly.distinct
  have proper := partly.proper
  rw [longer] at distinct proper
  constructor
  · refine .of_split ?_ (fun de listed => proper de (mem_append_left _ listed)) partly.cached_split
    exact (nodup_append.mp (names_append (front ++ back) [last] ▸ distinct)).1
  · rw [partly.cached_split,position_none]
    intro listed
    refine (apart_of_nodup distinct).1 ?_
    rw [names_append]
    exact mem_append_left _ listed

abbrev Bindings := CString → Option Nat

def bound (entries : List Dirent) : Bindings := fun name => (entries.find? (·.name = name)).map Dirent.inum

theorem position_bound (entries : List Dirent) (name : CString) :
    (position entries name).map DirentData.inum = bound entries name := by
  unfold position bound
  generalize offsetOf 0 = offset
  induction entries generalizing offset with
  | nil => rfl
  | cons de rest ih =>
    by_cases same : de.name = name
    · simp [positionFrom,same]
    · simp only [positionFrom,same,if_false,ih,find?_cons,decide_false]

theorem bound_none : bound entries name = none ↔ name ∉ names entries := by
  rw [← position_bound,Option.map_eq_none_iff,position_none]

theorem bound_insert (de : Dirent) (apart : de.name ∉ names front) :
    bound (front ++ de :: back) = update (bound (front ++ back)) de.name (some de.inum) := by
  funext name
  by_cases same : name = de.name
  · subst same
    rw [update_self,← position_bound,position_here apart]
    rfl
  · rw [update_of_ne same]
    simp only [bound,find?_append,find?_cons,Ne.symm same,decide_false]

theorem bound_remove (distinct : (names (front ++ de :: back)).Nodup) :
    bound (front ++ back) = update (bound (front ++ de :: back)) de.name none := by
  obtain ⟨inFront,inBack⟩ := apart_of_nodup distinct
  rw [bound_insert de inFront,update_idem,eq_comm,update_eq_self_iff,eq_comm,bound_none,names_append]
  exact fun listed => (mem_append.mp listed).elim inFront inBack

theorem PartlyCached.add (partly : PartlyCached dir) (full : fullCache dir)
    (entry : Entry name) (fresh : name ∉ names dir.entries) (inum : Nat) :
    PartlyCached (dirAddEntry dir name inum) ∧
      bound (dirAddEntry dir name inum).entries = update (bound dir.entries) name (some inum) := by
  have appended : addToLog dir dir.size ⟨inum,strncpy name dirsiz⟩ =
      ⟨dir.entries ++ [⟨inum,name⟩],dir.deCache,dir.entries.length⟩ := by
    rw [addToLog,if_neg (lt_irrefl _),strncpy_entry entry,fullCache_iff.mp full]
  have all : ∀ other, dir.deCache other = position dir.entries other := by
    intro other
    rw [partly.cached,fullCache_iff.mp full,take_length]
  have longer : PartlyCached ⟨dir.entries ++ [⟨inum,name⟩],dir.deCache,dir.entries.length⟩ := by
    refine .of_split ?_ ?_ all
    · rw [names_append]
      refine nodup_append.mpr ⟨partly.distinct,nodup_singleton _,fun a old b new same => ?_⟩
      cases mem_singleton.mp new
      cases same
      exact fresh old
    · intro de listed
      rcases mem_append.mp listed with old | new
      · exact partly.proper de old
      · rw [mem_singleton.mp new]
        exact entry
  obtain ⟨added,result⟩ := longer.addNext
  have done : dirAddEntry dir name inum = _ := (congrArg (deCacheAdd · name inum dir.size) appended).trans added
  rw [done]
  refine ⟨result,?_⟩
  rw [append_nil,bound_insert ⟨inum,name⟩ fresh,append_nil]

theorem PartlyCached.fillSlot (new : Dirent)
    (partly : PartlyCached ⟨front ++ old :: covered ++ back,cache,(front ++ old :: covered).length⟩)
    (entry : Entry new.name) (fresh : new.name ∉ names (front ++ old :: covered ++ back)) :
    PartlyCached ⟨front ++ new :: covered ++ back,
      update (update cache old.name none) new.name (some ⟨new.inum,offsetOf front.length⟩),
      (front ++ new :: covered).length⟩ := by
  have other : old.name ≠ new.name := by
    intro same
    exact fresh (by simp [names,same])
  refine partly.replace entry ?_ ?_ ?_ ?_
  · intro listed
    refine fresh ?_
    simp only [names,map_append,map_cons,mem_append,mem_cons] at listed ⊢
    tauto
  · intro name notOld notNew
    rw [update_of_ne notNew,update_of_ne notOld]
  · intro _
    rw [update_of_ne other,update_self]
  · exact update_self ..

theorem PartlyCached.rename (old : Dirent) {newname : CString}
    (partly : PartlyCached ⟨front ++ old :: covered ++ back,cache,(front ++ old :: covered).length⟩)
    (entry : Entry newname) (fresh : newname ∉ names (front ++ old :: covered ++ back))
    (hit : cache old.name = some ⟨old.inum,offsetOf front.length⟩) :
    let dir := deCacheDel ⟨front ++ old :: covered ++ back,cache,(front ++ old :: covered).length⟩ old.name
    let dir := addToLog dir (offsetOf front.length) ⟨old.inum,strncpy newname dirsiz⟩
    let dir := deCacheAdd dir newname old.inum (offsetOf front.length)
    PartlyCached dir ∧ dir.entries = front ++ ⟨old.inum,newname⟩ :: (covered ++ back) := by
  have deleted : deCacheDel ⟨front ++ old :: covered ++ back,cache,(front ++ old :: covered).length⟩ old.name =
      ⟨front ++ old :: (covered ++ back),update cache old.name none,(front ++ covered).length⟩ := by
    rw [deCacheDel_cached hit]
    simp
  dsimp only
  rw [deleted,strncpy_entry entry,addToLog_slot,deCacheAdd_entry _ entry]
  refine ⟨?_,rfl⟩
  have whole : front ++ (⟨old.inum,newname⟩ : Dirent) :: (covered ++ back) = front ++ ⟨old.inum,newname⟩ :: covered ++ back := by
    simp
  have count : (front ++ covered).length + 1 = (front ++ (⟨old.inum,newname⟩ : Dirent) :: covered).length := by
    simp only [length_append,length_cons]
    omega
  dsimp only
  rw [whole,count]
  exact partly.fillSlot ⟨old.inum,newname⟩ entry fresh

theorem PartlyCached.change (partly : PartlyCached dir) {oldname newname : CString}
    (oldShort : oldname.length < dirsiz) (newEntry : Entry newname) (fresh : newname ∉ names dir.entries) :
    PartlyCached (dirChangeEntry dir oldname newname).1 ∧
      bound (dirChangeEntry dir oldname newname).1.entries =
        match bound dir.entries oldname with
        | none => bound dir.entries
        | some inum => update (update (bound dir.entries) oldname none) newname (some inum) := by
  have looked := dirLookup_lookedUp partly oldShort
  have named : bound dir.entries oldname = (dirLookup dir oldname).2.map DirentData.inum := by
    rw [looked.result,position_bound]
  unfold dirChangeEntry
  rw [named]
  generalize dirLookup dir oldname = result at looked
  obtain ⟨dir',found⟩ := result
  cases found with
  | none => exact ⟨looked.partly,congrArg bound looked.entries⟩
  | some data =>
    have hit := looked.cached data rfl
    have before := looked.entries
    have partly' := looked.partly
    clear looked
    obtain ⟨front,old,covered,back,cache,rfl,rfl,rfl⟩ := partly'.covered hit
    rw [← before] at fresh ⊢
    obtain ⟨kept,entries'⟩ := partly'.rename old newEntry fresh hit
    refine ⟨kept,(congrArg bound entries').trans ?_⟩
    have inFront : newname ∉ names front := fun listed => fresh (by simp [names_append,listed])
    have whole : front ++ old :: covered ++ back = front ++ old :: (covered ++ back) := by simp
    rw [bound_insert ⟨old.inum,newname⟩ inFront,bound_remove (whole ▸ partly'.distinct),whole]
    rfl

theorem size_lastOff :
    (⟨entries ++ [last],cache,count⟩ : DirInode).size - direntSize = offsetOf entries.length := by
  unfold DirInode.size offsetOf
  simp only [length_append,length_singleton]
  rw [Nat.add_right_comm,Nat.succ_mul,Nat.add_sub_cancel]

theorem getDirent_last :
    getDirent ⟨entries ++ [last],cache,count⟩ (offsetOf entries.length) = some last := by
  unfold getDirent
  rw [if_neg (not_le.mpr (offsetOf_lt_size.mpr (by simp))),slotOf_offsetOf]
  simp

theorem itrunc_last :
    itrunc ⟨entries ++ [last],cache,count⟩ (offsetOf entries.length) = ⟨entries,cache,count⟩ := by
  unfold itrunc
  rw [slotOf_offsetOf]
  simp

theorem offsetOf_lt {slot other : Nat} : offsetOf slot < offsetOf other ↔ slot < other := by
  unfold offsetOf
  rw [Nat.mul_lt_mul_right (by decide : 0 < direntSize)]
  omega

theorem PartlyCached.removeLast
    (partly : PartlyCached ⟨front ++ [old],cache,(front ++ [old]).length⟩)
    (hit : cache old.name = some data) :
    removeFound ⟨front ++ [old],cache,(front ++ [old]).length⟩ old.name (offsetOf front.length) =
        ⟨front,update cache old.name none,front.length⟩ ∧
      PartlyCached ⟨front,update cache old.name none,front.length⟩ := by
  refine ⟨?_,partly.dropCached⟩
  unfold removeFound
  rw [deCacheDel_cached hit]
  dsimp only
  rw [size_lastOff,if_neg (lt_irrefl _),itrunc_last]
  simp

theorem bound_moved {rest : List Dirent} (distinct : (names (front ++ old :: (rest ++ [last]))).Nodup) :
    bound (front ++ last :: rest) = update (bound (front ++ old :: (rest ++ [last]))) old.name none := by
  have inRest : last.name ∉ names (front ++ rest) := by
    have shape : front ++ old :: (rest ++ [last]) = (front ++ old :: rest) ++ [last] := by simp
    have apart := (apart_of_nodup (shape ▸ distinct)).1
    simp only [names,map_append,map_cons,mem_append,mem_cons] at apart ⊢
    tauto
  have inFront : last.name ∉ names front := fun listed => inRest (by simp [names_append,listed])
  rw [← bound_remove distinct,bound_insert last inFront,← append_assoc,bound_insert last inRest,append_nil]

theorem removeFound_inner {data : DirentData} (hit : cache old.name = some data)
    (whole : PartlyCached ⟨front ++ old :: covered ++ back ++ [last],cache,count⟩)
    (short : PartlyCached ⟨front ++ old :: covered ++ back,update cache last.name none,(front ++ old :: covered).length⟩)
    (counted : (front ++ covered).length = if (cache last.name).isSome then count - 1 - 1 else count - 1) :
    PartlyCached (removeFound ⟨front ++ old :: covered ++ back ++ [last],cache,count⟩ old.name (offsetOf front.length)) ∧
      bound (removeFound ⟨front ++ old :: covered ++ back ++ [last],cache,count⟩ old.name (offsetOf front.length)).entries =
        update (bound (front ++ old :: covered ++ back ++ [last])) old.name none := by
  have entry := whole.proper last (by simp)
  have fresh := (apart_of_nodup whole.distinct).1
  have other : old.name ≠ last.name := fun same => fresh (by simp [names,same])
  have shape : front ++ old :: covered ++ back ++ [last] = front ++ old :: (covered ++ back ++ [last]) := by simp
  have shape' : front ++ last :: (covered ++ back ++ [last]) = front ++ last :: covered ++ back ++ [last] := by simp
  have long : (front ++ old :: covered ++ back).length = (front ++ last :: covered ++ back).length := by simp
  have result : removeFound ⟨front ++ old :: covered ++ back ++ [last],cache,count⟩ old.name (offsetOf front.length) =
      ⟨front ++ last :: covered ++ back,
        update (update (update cache last.name none) old.name none) last.name
          (some ⟨last.inum,offsetOf front.length⟩),(front ++ last :: covered).length⟩ := by
    unfold removeFound
    rw [deCacheDel_cached hit]
    dsimp only
    rw [size_lastOff,if_pos (offsetOf_lt.mpr (by simp)),getDirent_last,Option.getD_some,deCacheDel_eq]
    dsimp only
    simp only [update_of_ne other.symm,← counted]
    rw [shape,addToLog_slot,deCacheAdd_entry _ entry]
    dsimp only
    rw [shape',long,itrunc_last,update_comm other]
    congr 1
    simp only [length_append,length_cons]
    omega
  rw [result]
  refine ⟨short.fillSlot last entry fresh,?_⟩
  have moved := bound_moved (shape ▸ whole.distinct)
  rwa [shape,append_assoc,cons_append]

theorem PartlyCached.removeFound (partly : PartlyCached dir)
    (hit : dir.deCache name = some data) :
    PartlyCached (removeFound dir name data.offset) ∧
      bound (Directory.removeFound dir name data.offset).entries = update (bound dir.entries) name none := by
  obtain ⟨front,old,covered,back,cache,rfl,rfl,rfl⟩ := partly.covered hit
  dsimp only at hit ⊢
  rcases eq_nil_or_concat' back with rfl | ⟨before,last,rfl⟩
  · rw [append_nil] at partly ⊢
    rcases eq_nil_or_concat' covered with rfl | ⟨before,last,rfl⟩
    · obtain ⟨removed,kept⟩ := partly.removeLast hit
      rw [removed]
      refine ⟨kept,?_⟩
      have fewer := bound_remove partly.distinct
      rwa [append_nil] at fewer
    · -- every entry is cached, the last one too
      have shape : front ++ old :: (before ++ [last]) = front ++ old :: before ++ [last] := by simp
      rw [shape] at partly ⊢
      have cached : cache last.name = some ⟨last.inum,offsetOf (front ++ old :: before).length⟩ := by
        have all : cache last.name = position (front ++ old :: before ++ [last]) last.name := by
          simpa only [take_length] using partly.cached last.name
        exact all.trans (position_here (apart_of_nodup partly.distinct).1)
      have done := @removeFound_inner [] front old last cache (front ++ old :: before ++ [last]).length before _ hit
      simp only [append_nil] at done
      refine done partly partly.dropCached ?_
      rw [cached]
      simp only [length_append,length_cons,length_nil,Option.isSome_some,if_true]
      omega
  · obtain ⟨short,missing⟩ := partly.dropUncached
    rw [← append_assoc] at partly ⊢
    refine removeFound_inner hit partly ?_ ?_
    · rwa [update_eq_self_iff.mpr missing.symm]
    · rw [missing]
      simp only [length_append,length_cons,Option.isSome_none,Bool.false_eq_true,if_false]
      omega

theorem PartlyCached.remove (partly : PartlyCached dir) (short : name.length < dirsiz) :
    PartlyCached (dirRemoveEntry dir name).1 ∧
      bound (dirRemoveEntry dir name).1.entries = update (bound dir.entries) name none := by
  have looked := dirLookup_lookedUp partly short
  unfold dirRemoveEntry
  generalize dirLookup dir name = result at looked
  obtain ⟨dir',found⟩ := result
  cases found with
  | none =>
    refine ⟨looked.partly,(congrArg bound looked.entries).trans (update_eq_self_iff.mpr ?_).symm⟩
    rw [eq_comm,bound_none,← position_none]
    exact looked.result.symm
  | some data =>
    obtain ⟨kept,fewer⟩ := looked.partly.removeFound (looked.cached data rfl)
    exact ⟨kept,by rw [← looked.entries]; exact fewer⟩

-- A name is added, or given to another entry, when the directory does not have it: the callers look it up or remove
-- it first.
inductive Action where
  | lookup (name : EntryName)
  | add (name : EntryName) (inum : Nat)
  | remove (name : EntryName)
  | change (oldname newname : EntryName)

def step (dir : DirInode) : Action → Option DirInode
  | .lookup name => some (dirLookup dir name.chars).1
  | .add name inum => if name.chars ∈ names dir.entries then none else some (dirAddEntry dir name.chars inum)
  | .remove name => some (dirRemoveEntry dir name.chars).1
  | .change oldname newname =>
    if newname.chars ∈ names dir.entries then none else some (dirChangeEntry dir oldname.chars newname.chars).1

def associate (bindings : Bindings) : Action → Bindings
  | .lookup _ => bindings
  | .add name inum => update bindings name.chars (some inum)
  | .remove name => update bindings name.chars none
  | .change oldname newname =>
    match bindings oldname.chars with
    | none => bindings
    | some inum => update (update bindings oldname.chars none) newname.chars (some inum)

def AddsToFullCache (dir : DirInode) : Action → Prop
  | .add .. => fullCache dir
  | .lookup _ | .remove _ | .change .. => True

instance (dir : DirInode) (action : Action) : Decidable (AddsToFullCache dir action) := by
  cases action <;> (unfold AddsToFullCache; infer_instance)

theorem step_partlyCached {dir' : DirInode} {action : Action} (partly : PartlyCached dir)
    (full : AddsToFullCache dir action) (done : step dir action = some dir') :
    PartlyCached dir' ∧ bound dir'.entries = associate (bound dir.entries) action := by
  cases action with
  | lookup name =>
    cases done
    have looked := dirLookup_lookedUp partly name.short
    exact ⟨looked.partly,congrArg bound looked.entries⟩
  | add name inum =>
    obtain ⟨fresh,added⟩ := Option.ite_none_left_eq_some.mp done
    cases added
    exact partly.add full name.entry fresh inum
  | remove name =>
    cases done
    exact partly.remove name.short
  | change oldname newname =>
    obtain ⟨fresh,changed⟩ := Option.ite_none_left_eq_some.mp done
    cases changed
    exact partly.change oldname.short newname.entry fresh

theorem run_partlyCached {dir' : DirInode} {actions : List Action} (partly : PartlyCached dir)
    (guarded : Guarded step AddsToFullCache dir actions) (reached : run step dir actions = some dir') :
    PartlyCached dir' ∧ bound dir'.entries = actions.foldl associate (bound dir.entries) := by
  induction actions generalizing dir with
  | nil => cases reached; exact ⟨partly,rfl⟩
  | cons action rest ih =>
    obtain ⟨next,stepped,later⟩ := (run_cons step dir dir' action rest).mp reached
    obtain ⟨partly',associated⟩ := step_partlyCached partly guarded.1 stepped
    obtain ⟨kept,after⟩ := ih partly' (guarded.tail stepped) later
    exact ⟨kept,by rw [after,associated,foldl_cons]⟩

theorem lookup_finds_entry (dir dir' : DirInode) (actions : List Action) (start : PartlyCached dir)
    (guarded : Guarded step AddsToFullCache dir actions) (reached : run step dir actions = some dir') (name : EntryName) :
    (dirLookup dir' name.chars).2 = position dir'.entries name.chars ∧
      (dirLookup dir' name.chars).2.map DirentData.inum = actions.foldl associate (bound dir.entries) name.chars ∧
      ∀ found, (dirLookup dir' name.chars).2 = some found → getDirent dir' found.offset = some ⟨found.inum,name.chars⟩ := by
  obtain ⟨partly,after⟩ := run_partlyCached start guarded reached
  have looked := (dirLookup_lookedUp partly name.short).result
  refine ⟨looked,?_,fun found hit => ?_⟩
  · rw [looked,position_bound,after]
  · obtain ⟨front,back,split,at_⟩ := position_split (looked.symm.trans hit)
    rw [at_,getDirent,if_neg (not_le.mpr (offsetOf_lt_size.mpr (by simp [split]))),slotOf_offsetOf,split]
    simp

def nameA : EntryName := ⟨[97],by decide,by decide⟩
def nameB : EntryName := ⟨[98],by decide,by decide⟩
def nameC : EntryName := ⟨[99],by decide,by decide⟩
def nameD : EntryName := ⟨[100],by decide,by decide⟩

def threeEntries : DirInode := loaded [⟨5,nameA.chars⟩,⟨6,nameB.chars⟩,⟨7,nameC.chars⟩]

theorem threeEntries_partlyCached : PartlyCached threeEntries := loaded_partlyCached (by decide) (by decide)

def refilled : List Action := [.lookup nameA,.remove nameA,.lookup nameA,.add nameA 9,.change nameC nameD]

theorem lookup_finds_entry_refilled :
    ∃ dir', run step threeEntries refilled = some dir' ∧
      (dirLookup dir' nameB.chars).2 = position dir'.entries nameB.chars ∧
        (dirLookup dir' nameB.chars).2.map DirentData.inum =
          refilled.foldl associate (bound threeEntries.entries) nameB.chars ∧
        ∀ found, (dirLookup dir' nameB.chars).2 = some found → getDirent dir' found.offset = some ⟨found.inum,nameB.chars⟩ := by
  obtain ⟨dir',reached⟩ : ∃ dir', run step threeEntries refilled = some dir' := by decide +kernel
  exact ⟨dir',reached,lookup_finds_entry threeEntries dir' _ threeEntries_partlyCached (by decide) reached nameB⟩

-- The removal of "a" caches one slot, which "c" then fills, and the entry added next counts as the second slot, that
-- of "b".
theorem added_after_removal_hides_another :
    ∃ dir, run step threeEntries [.remove nameA,.add nameA 9] = some dir ∧
      dir.entries = [⟨7,nameC.chars⟩,⟨6,nameB.chars⟩,⟨9,nameA.chars⟩] ∧
      (dirLookup dir nameB.chars).2 = none := by
  refine ⟨dirAddEntry (dirRemoveEntry threeEntries nameA.chars).1 nameA.chars 9,?_,by decide,by decide⟩
  have fresh : nameA.chars ∉ names (dirRemoveEntry threeEntries nameA.chars).1.entries := by decide
  exact (run_cons ..).mpr ⟨_,rfl,(run_cons ..).mpr ⟨_,Option.ite_none_left_eq_some.mpr ⟨fresh,rfl⟩,rfl⟩⟩

-- A creation adds its name after a lookup that missed and so cached every entry.
theorem mlfsObjectCreate_partlyCached (partly : PartlyCached dir) (name : EntryName) (inum : Nat) :
    PartlyCached (mlfsObjectCreate dir name.chars inum) ∧
      bound (mlfsObjectCreate dir name.chars inum).entries =
        match bound dir.entries name.chars with
        | some _ => bound dir.entries
        | none => update (bound dir.entries) name.chars (some inum) := by
  have looked := dirLookup_lookedUp partly name.short
  have named : bound dir.entries name.chars = (dirLookup dir name.chars).2.map DirentData.inum := by
    rw [looked.result,position_bound]
  unfold mlfsObjectCreate
  rw [named]
  generalize dirLookup dir name.chars = result at looked
  obtain ⟨dir',found⟩ := result
  cases found with
  | some data => exact ⟨looked.partly,congrArg bound looked.entries⟩
  | none =>
    have fresh : name.chars ∉ names dir'.entries := by
      rw [looked.entries,← position_none]
      exact looked.result.symm
    obtain ⟨kept,more⟩ := looked.partly.add (looked.missed rfl) name.entry fresh inum
    exact ⟨kept,by rw [← looked.entries]; exact more⟩

theorem mlfsObjectCreate_partlyCached_new :
    bound (mlfsObjectCreate threeEntries nameD.chars 9).entries = update (bound threeEntries.entries) nameD.chars (some 9) :=
  (mlfsObjectCreate_partlyCached threeEntries_partlyCached nameD 9).2

end Assise.Directory
