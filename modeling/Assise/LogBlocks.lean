import Assise.FileWrite
import Assise.LogRing

-- The commit of one transaction: `compute_log_blocks` counts the blocks that the entries need, and `persist_log_blocks`
-- gives each entry its blocks. The two loops count the vectors on their own.
namespace Assise.LogBlocks

open OpenFiles FileWrite List Option

inductive LogType where
  | inodeCreate
  | inodeUpdate
  | dirAdd
  | dirRename
  | dirDel
  | file
  | unlink
  | alloc
deriving DecidableEq, Repr

def LogType.hasVec : LogType → Bool
  | .dirAdd | .dirRename | .dirDel | .file => true
  | .inodeCreate | .inodeUpdate | .unlink | .alloc => false

structure HdrEntry where
  type : LogType
  inodeNo : Nat
  data : Nat
  length : Nat
deriving DecidableEq, Repr

structure IoVec where
  base : Nat
  size : Nat
deriving DecidableEq, Repr

structure LoghdrMeta where
  entries : List HdrEntry
  ioVec : List IoVec
deriving DecidableEq, Repr

def addToLoghdr (hdr : LoghdrMeta) (entry : HdrEntry) : Option LoghdrMeta :=
  if gMaxBlocksPerOperation ≤ hdr.entries.length then none else some {hdr with entries := hdr.entries ++ [entry]}

def addToLog (hdr : LoghdrMeta) (type : LogType) (inodeNo off base size : Nat) : Option LoghdrMeta :=
  if add64 off size ≤ off then none
  else addToLoghdr {hdr with ioVec := hdr.ioVec ++ [⟨base,size⟩]} ⟨type,inodeNo,off,size⟩

-- What callers add: an entry without a vector, or `size` bytes from `base` on for offset `off` of a file or a directory.
inductive Item where
  | plain (type : LogType) (kind : type.hasVec = false) (inodeNo data length : Nat)
  | data (type : LogType) (kind : type.hasVec = true) (inodeNo off base : Nat) (size : UInt32)

def addItem (hdr : LoghdrMeta) : Item → Option LoghdrMeta
  | .plain type _ inodeNo data length => addToLoghdr hdr ⟨type,inodeNo,data,length⟩
  | .data type _ inodeNo off base size => addToLog hdr type inodeNo off base size.toNat

def build (items : List Item) : Option LoghdrMeta := items.foldlM addItem ⟨[],[]⟩

def blocksFor (size : Nat) : Nat := if size < gBlockSizeBytes then 1 else size / gBlockSizeBytes

-- A vector that was not set has whatever the structure had before; zero here.
def vecAt (ioVec : List IoVec) (nIovec : Nat) : IoVec := ioVec.getD nIovec ⟨0,0⟩

def computeLogBlocks (ioVec : List IoVec) : Nat → List HdrEntry → Nat
  | _,[] => 0
  | nIovec,entry :: rest =>
    if entry.type.hasVec then blocksFor (vecAt ioVec nIovec).size + computeLogBlocks ioVec (nIovec + 1) rest
    else 1 + computeLogBlocks ioVec nIovec rest

-- A block of the log that is written: the inode, or `size` bytes of a buffer from `base` on, at `start` in the block.
inductive Written where
  | inode (block inodeNo : Nat)
  | bytes (block start size base : Nat)
deriving DecidableEq, Repr

def Written.block : Written → Nat
  | .inode block _ | .bytes block _ _ _ => block

def Written.ofLogWrite (l : LogWrite) : Written := .bytes l.block l.start l.size l.base

-- `blocks[idx]` and the writes of one entry; the place of an `L_TYPE_ALLOC` entry is not set.
structure Persisted where
  block : Option Nat
  writes : List Written
deriving DecidableEq, Repr

-- `field` is `nr_log_blocks` as the header has it. The next block comes back; `none` stands for a failed assertion.
def persistLogInode (field pos inodeNo : Nat) : Option (Nat × Persisted) :=
  if field < pos + 1 then none else some (pos + 1,⟨some pos,[.inode pos inodeNo]⟩)

def persistVec (field pos off : Nat) (vec : IoVec) : Option (Nat × Persisted) :=
  (persistLogFile field pos ⟨off,vec.size,vec.base⟩).map fun (next,writes) => (next,⟨some pos,writes.map .ofLogWrite⟩)

def persistEntry (field pos : Nat) (entry : HdrEntry) (vec : IoVec) : Option (Nat × Persisted) :=
  match entry.type with
  | .unlink | .inodeCreate | .inodeUpdate => persistLogInode field pos entry.inodeNo
  | .dirAdd | .dirRename | .dirDel | .file => persistVec field pos entry.data vec
  | .alloc => some (pos,⟨none,[]⟩)

def persistLogBlocks (field : Nat) (ioVec : List IoVec) : Nat → Nat → List HdrEntry → List Persisted
  | _,_,[] => []
  | pos,nIovec,entry :: rest =>
    match persistEntry field pos entry (vecAt ioVec nIovec) with
    | none => []
    | some (pos,persisted) =>
      persisted :: persistLogBlocks field ioVec pos (if entry.type.hasVec then nIovec + 1 else nIovec) rest

def nrLogBlocks (hdr : LoghdrMeta) : Nat := computeLogBlocks hdr.ioVec 0 hdr.entries + 1

def commitLog (hdr : LoghdrMeta) : List Persisted := persistLogBlocks (nrLogBlocks hdr % 2 ^ 16) hdr.ioVec 1 0 hdr.entries

def Item.entry : Item → HdrEntry
  | .plain type _ inodeNo info length => ⟨type,inodeNo,info,length⟩
  | .data type _ inodeNo off _ size => ⟨type,inodeNo,off,size.toNat⟩

def Item.vec : Item → Option IoVec
  | .plain .. => none
  | .data _ _ _ _ base size => some ⟨base,size.toNat⟩

def Item.blocks : Item → Nat
  | .plain .. => 1
  | .data _ _ _ _ _ size => blocksFor size.toNat

def Item.FromCaller : Item → Prop
  | .plain .. => True
  | .data .file _ _ off base size => ∃ offset n, ⟨off,size.toNat,base⟩ ∈ writeEntries offset n
  | .data _ _ _ off _ size => off % 32 = 0 ∧ size = 32 ∨ off = 0 ∧ size = 64

-- The recorded block is where the data of the entry is: byte `j` of a vector stands `j` bytes behind the offset's place
-- in that block.
def Item.Found : Item → Persisted → Prop
  | .plain .alloc _ _ _ _,p => p = ⟨none,[]⟩
  | .plain _ _ inodeNo _ _,p => ∃ block, p = ⟨some block,[.inode block inodeNo]⟩
  | .data _ _ _ off base size,p => ∃ block, p.block = some block ∧ ∀ j, j < size.toNat →
      let place := off % gBlockSizeBytes + j
      ∃ start length from_, .bytes (block + place / gBlockSizeBytes) start length from_ ∈ p.writes ∧
        start ≤ place % gBlockSizeBytes ∧ place % gBlockSizeBytes < start + length ∧
        from_ + (place % gBlockSizeBytes - start) = base + j

structure Right (items : List Item) (hdr : LoghdrMeta) : Prop where
  apart : (((commitLog hdr).flatMap Persisted.writes).map Written.block).Nodup
  inside : ∀ w ∈ (commitLog hdr).flatMap Persisted.writes, 0 < w.block ∧ w.block < nrLogBlocks hdr
  field : nrLogBlocks hdr % 2 ^ 16 = nrLogBlocks hdr
  found : ∀ (i : Nat) item persisted, items[i]? = some item → (commitLog hdr)[i]? = some persisted → item.Found persisted
  complete : (∀ item ∈ items, item.FromCaller) → (commitLog hdr).length = items.length

section Build
variable {items : List Item}

variable {hdr : LoghdrMeta} {item : Item}

theorem addItem_some {hdr' : LoghdrMeta} (done : addItem hdr item = some hdr') :
    hdr' = ⟨hdr.entries ++ [item.entry],hdr.ioVec ++ item.vec.toList⟩ := by
  cases item with
  | plain type kind inodeNo data length =>
    unfold addItem addToLoghdr at done
    obtain ⟨_,same⟩ := ite_none_left_eq_some.mp done
    cases same
    simp [Item.entry,Item.vec]
  | data type kind inodeNo off base size =>
    unfold addItem addToLog addToLoghdr at done
    obtain ⟨_,rest⟩ := ite_none_left_eq_some.mp done
    obtain ⟨_,same⟩ := ite_none_left_eq_some.mp rest
    cases same
    simp [Item.entry,Item.vec]

theorem build_some (built : build items = some hdr) :
    hdr = ⟨items.map Item.entry,items.filterMap Item.vec⟩ := by
  suffices grown : ∀ before : LoghdrMeta, items.foldlM addItem before = some hdr →
      hdr = ⟨before.entries ++ items.map Item.entry,before.ioVec ++ items.filterMap Item.vec⟩ by
    simpa using grown _ built
  clear built
  induction items with
  | nil =>
    intro before done
    cases done
    simp
  | cons item rest ih =>
    intro before done
    rw [foldlM_cons] at done
    obtain ⟨middle,added,later⟩ := bind_eq_some_iff.mp done
    rw [ih middle later,addItem_some added]
    cases vec : item.vec <;> simp [vec]

theorem vecAt_items (front : List IoVec) (item : Item) (rest : List Item) {vec : IoVec} (own : item.vec = some vec) :
    vecAt (front ++ (item :: rest).filterMap Item.vec) front.length = vec := by
  rw [filterMap_cons_some own]
  simp [vecAt]

theorem vecs_cons (front : List IoVec) (item : Item) (rest : List Item) :
    front ++ (item :: rest).filterMap Item.vec = front ++ item.vec.toList ++ rest.filterMap Item.vec := by
  cases vec : item.vec <;> simp [vec]

theorem computeLogBlocks_items (front : List IoVec) (items : List Item) :
    computeLogBlocks (front ++ items.filterMap Item.vec) front.length (items.map Item.entry) = (items.map Item.blocks).sum := by
  induction items generalizing front with
  | nil => rfl
  | cons item rest ih =>
    have later := ih (front ++ item.vec.toList)
    rw [←vecs_cons] at later
    rw [map_cons,map_cons,sum_cons,computeLogBlocks]
    cases item with
    | plain type kind inodeNo data length =>
      rw [if_neg (by simp [Item.entry,kind])]
      simp only [Item.vec,Option.toList_none,append_nil] at later
      rw [later]
      rfl
    | data type kind inodeNo off base size =>
      rw [if_pos (by simp [Item.entry,kind]),vecAt_items front (.data type kind inodeNo off base size) rest rfl]
      simp only [Item.vec,Option.toList_some,length_append,length_singleton] at later
      rw [later]
      rfl

end Build

section Persist
variable {field pos : Nat}

def persistItem (field pos : Nat) (item : Item) : Option (Nat × Persisted) := persistEntry field pos item.entry (item.vec.getD ⟨0,0⟩)

def persistItems (field : Nat) : Nat → List Item → List Persisted
  | _,[] => []
  | pos,item :: rest =>
    match persistItem field pos item with
    | none => []
    | some (pos,persisted) => persisted :: persistItems field pos rest

theorem persistEntry_plain {entry : HdrEntry} (kind : entry.type.hasVec = false) (vec vec' : IoVec) :
    persistEntry field pos entry vec = persistEntry field pos entry vec' := by
  unfold persistEntry
  cases type : entry.type <;> first | rfl | (rw [type] at kind; cases kind)

theorem persistLogBlocks_items (pos : Nat) (front : List IoVec) (items : List Item) :
    persistLogBlocks field (front ++ items.filterMap Item.vec) pos front.length (items.map Item.entry) = persistItems field pos items := by
  induction items generalizing pos front with
  | nil => rfl
  | cons item rest ih =>
    have same : persistEntry field pos item.entry (vecAt (front ++ (item :: rest).filterMap Item.vec) front.length) =
        persistItem field pos item := by
      cases item with
      | plain type kind inodeNo data length => exact persistEntry_plain kind _ _
      | data type kind inodeNo off base size =>
        rw [vecAt_items front (.data type kind inodeNo off base size) rest rfl]
        rfl
    have count : (if item.entry.type.hasVec then front.length + 1 else front.length) = (front ++ item.vec.toList).length := by
      cases item with
      | plain type kind inodeNo data length | data type kind inodeNo off base size => simp [Item.entry,Item.vec,kind]
    rw [map_cons,persistLogBlocks,same,count,vecs_cons]
    unfold persistItems
    cases persistItem field pos item with
    | none => rfl
    | some result => exact congrArg (result.2 :: ·) (ih result.1 (front ++ item.vec.toList))

variable {p : Persisted} {off : Nat} {type : LogType} {item : Item}

theorem persistVec_some {next : Nat} {vec : IoVec} (done : persistVec field pos off vec = some (next,p)) :
    next = pos + blocksFor vec.size ∧ p.block = some pos ∧ p.writes.map Written.block = List.range' pos (blocksFor vec.size) ∧
      ∀ j, j < vec.size → ∃ start length from_,
        .bytes (pos + (off % gBlockSizeBytes + j) / gBlockSizeBytes) start length from_ ∈ p.writes ∧
        start ≤ (off % gBlockSizeBytes + j) % gBlockSizeBytes ∧ (off % gBlockSizeBytes + j) % gBlockSizeBytes < start + length ∧
        from_ + ((off % gBlockSizeBytes + j) % gBlockSizeBytes - start) = vec.base + j := by
  have positive : 0 < gBlockSizeBytes := by decide
  obtain ⟨⟨next',writes⟩,stored,same⟩ := map_eq_some_iff.mp done
  cases same
  unfold persistLogFile at stored
  dsimp only at stored
  by_cases small : vec.size < gBlockSizeBytes
  · rw [if_pos small] at stored
    obtain ⟨fits,same⟩ := ite_none_left_eq_some.mp stored
    cases same
    have one : blocksFor vec.size = 1 := if_pos small
    refine ⟨by rw [one],rfl,by rw [one]; rfl,fun j inside => ?_⟩
    have below : off % gBlockSizeBytes + j < gBlockSizeBytes := by omega
    rw [Nat.div_eq_of_lt below,Nat.mod_eq_of_lt below]
    exact ⟨off % gBlockSizeBytes,vec.size,vec.base,mem_singleton.mpr rfl,by omega,by omega,by omega⟩
  · rw [if_neg small] at stored
    obtain ⟨aligned,rest⟩ := ite_none_left_eq_some.mp stored
    obtain ⟨room,same⟩ := ite_none_left_eq_some.mp rest
    cases same
    have count : blocksFor vec.size = vec.size / gBlockSizeBytes := if_neg small
    have start : off % gBlockSizeBytes = 0 := by omega
    have whole : vec.size % gBlockSizeBytes = 0 := by omega
    rw [count]
    refine ⟨rfl,rfl,?_,fun j inside => ?_⟩
    · rw [List.map_map,List.map_map,List.range'_eq_map_range]
      rfl
    · rw [start,zero_add]
      have split := Nat.mod_add_div j gBlockSizeBytes
      have less : j / gBlockSizeBytes < vec.size / gBlockSizeBytes := by
        rw [Nat.div_lt_iff_lt_mul positive,Nat.div_mul_cancel (Nat.dvd_of_mod_eq_zero whole)]
        exact inside
      refine ⟨0,gBlockSizeBytes,vec.base + j / gBlockSizeBytes * gBlockSizeBytes,?_,Nat.zero_le _,?_,?_⟩
      · exact mem_map.mpr ⟨_,mem_map.mpr ⟨j / gBlockSizeBytes,mem_range.mpr less,rfl⟩,rfl⟩
      · rw [zero_add]
        exact Nat.mod_lt j positive
      · rw [mul_comm]
        omega

theorem persistItem_inode (kind : type.hasVec = false) (inode : type ≠ .alloc) (inodeNo info length : Nat) :
    persistItem field pos (.plain type kind inodeNo info length) = persistLogInode field pos inodeNo ∧
      ∀ p, (Item.plain type kind inodeNo info length).Found p ↔ ∃ block, p = ⟨some block,[.inode block inodeNo]⟩ := by
  cases type <;> first | exact ⟨rfl,fun _ => Iff.rfl⟩ | exact absurd rfl inode | cases kind

theorem persistItem_data (kind : type.hasVec = true) (inodeNo off base : Nat) (size : UInt32) :
    persistItem field pos (.data type kind inodeNo off base size) = persistVec field pos off ⟨base,size.toNat⟩ := by
  cases type <;> first | rfl | cases kind

theorem persistItem_some {next : Nat} (done : persistItem field pos item = some (next,p)) :
    item.Found p ∧ pos ≤ next ∧ next ≤ pos + item.blocks ∧ p.writes.map Written.block = List.range' pos (next - pos) := by
  cases item with
  | plain type kind inodeNo info length =>
    by_cases alloc : type = .alloc
    · subst alloc
      cases done
      exact ⟨rfl,le_refl _,Nat.le_succ _,by rw [Nat.sub_self]; rfl⟩
    · obtain ⟨same,found⟩ := persistItem_inode kind alloc inodeNo info length
      rw [same,persistLogInode] at done
      obtain ⟨_,same⟩ := ite_none_left_eq_some.mp done
      cases same
      exact ⟨(found _).mpr ⟨pos,rfl⟩,Nat.le_succ _,le_refl _,by rw [Nat.add_sub_cancel_left]; rfl⟩
  | data type kind inodeNo off base size =>
    rw [persistItem_data] at done
    obtain ⟨rfl,block,blocks,found⟩ := persistVec_some done
    exact ⟨⟨pos,block,found⟩,Nat.le_add_right ..,le_refl _,by rw [Nat.add_sub_cancel_left]; exact blocks⟩

theorem persistItems_blocks (field pos : Nat) (items : List Item) :
    ∃ count, count ≤ (items.map Item.blocks).sum ∧
      ((persistItems field pos items).flatMap Persisted.writes).map Written.block = List.range' pos count := by
  induction items generalizing pos with
  | nil => exact ⟨0,le_refl _,rfl⟩
  | cons item rest ih =>
    unfold persistItems
    cases done : persistItem field pos item with
    | none => exact ⟨0,Nat.zero_le _,rfl⟩
    | some result =>
      obtain ⟨next,p⟩ := result
      obtain ⟨_,low,high,blocks⟩ := persistItem_some done
      obtain ⟨count,within,later⟩ := ih next
      refine ⟨next - pos + count,by rw [map_cons,sum_cons]; omega,?_⟩
      dsimp only
      rw [flatMap_cons,map_append,blocks,later,←range'_append_1,Nat.add_sub_cancel' low]

variable {items : List Item}

theorem persistItems_found (pos : Nat) {i : Nat} (here : items[i]? = some item)
    (stored : (persistItems field pos items)[i]? = some p) : item.Found p := by
  induction items generalizing pos i with
  | nil => cases here
  | cons first rest ih =>
    unfold persistItems at stored
    cases done : persistItem field pos first with
    | none =>
      rw [done] at stored
      cases stored
    | some result =>
      rw [done] at stored
      cases i with
      | zero =>
        cases here
        cases stored
        exact (persistItem_some done).1
      | succ i => exact ih result.1 here stored

theorem dirent_inBlocks {size : UInt32} (base : Nat) (shape : off % 32 = 0 ∧ size = 32 ∨ off = 0 ∧ size = 64) :
    InBlocks ⟨off,size.toNat,base⟩ := by
  have block : gBlockSizeBytes = 4096 := rfl
  refine .inl ?_
  rw [block]
  rcases shape with ⟨slot,rfl⟩ | ⟨rfl,rfl⟩
  · exact ⟨show 32 < 4096 by omega,show off % 4096 + 32 ≤ 4096 by omega⟩
  · exact ⟨show 64 < 4096 by omega,show 0 % 4096 + 64 ≤ 4096 by omega⟩

theorem fromCaller_inBlocks {kind : type.hasVec = true} {inodeNo base : Nat} {size : UInt32}
    (shape : (Item.data type kind inodeNo off base size).FromCaller) : InBlocks ⟨off,size.toNat,base⟩ := by
  by_cases file : type = .file
  · subst file
    obtain ⟨offset,n,member⟩ := shape
    exact writeEntries_inBlocks offset n _ member
  · refine dirent_inBlocks base ?_
    cases type <;> first | exact shape | exact absurd rfl file

theorem persistItem_returns (shape : item.FromCaller) (room : pos + item.blocks ≤ field) :
    (persistItem field pos item).isSome := by
  cases item with
  | plain type kind inodeNo info length =>
    by_cases alloc : type = .alloc
    · subst alloc
      rfl
    · have free : ¬ field < pos + 1 := not_lt.mpr room
      rw [(persistItem_inode kind alloc inodeNo info length).1,persistLogInode,if_neg free]
      rfl
  | data type kind inodeNo off base size =>
    obtain ⟨writes,stored,_⟩ := persistLogFile_stored (fromCaller_inBlocks shape) room
    rw [persistItem_data,persistVec,stored]
    rfl

theorem persistItems_complete {pos : Nat} (shapes : ∀ item ∈ items, item.FromCaller)
    (room : pos + (items.map Item.blocks).sum ≤ field) : (persistItems field pos items).length = items.length := by
  induction items generalizing pos with
  | nil => rfl
  | cons item rest ih =>
    rw [map_cons,sum_cons] at room
    have fits : pos + item.blocks ≤ field := by omega
    obtain ⟨⟨next,p⟩,done⟩ := isSome_iff_exists.mp (persistItem_returns (shapes item mem_cons_self) fits)
    obtain ⟨_,_,high,_⟩ := persistItem_some done
    have later : next + (rest.map Item.blocks).sum ≤ field := by omega
    unfold persistItems
    rw [done]
    exact congrArg (· + 1) (ih (fun item member => shapes item (mem_cons_of_mem _ member)) later)

end Persist

variable {hdr : LoghdrMeta}

theorem nrLogBlocks_items (built : build items = some hdr) :
    nrLogBlocks hdr = (items.map Item.blocks).sum + 1 := by
  rw [build_some built,nrLogBlocks]
  exact congrArg (· + 1) (computeLogBlocks_items [] items)

theorem commit_right_iff {items : List Item} {hdr : LoghdrMeta} (built : build items = some hdr) :
    Right items hdr ↔ (items.map Item.blocks).sum + 1 < 2 ^ 16 := by
  have count := nrLogBlocks_items built
  rw [← count]
  have persisted : commitLog hdr = persistItems (nrLogBlocks hdr % 2 ^ 16) 1 items := by
    unfold commitLog
    generalize nrLogBlocks hdr % 2 ^ 16 = field
    rw [build_some built]
    exact persistLogBlocks_items 1 [] items
  obtain ⟨written,within,blocks⟩ := persistItems_blocks (nrLogBlocks hdr % 2 ^ 16) 1 items
  rw [←persisted] at blocks
  constructor
  · intro right
    rw [←right.field]
    exact Nat.mod_lt _ (by decide)
  · intro fits
    have field := Nat.mod_eq_of_lt fits
    refine ⟨?_,fun w member => ?_,field,fun i item p here stored => ?_,fun shapes => ?_⟩
    · rw [blocks]
      exact nodup_range'
    · have listed : w.block ∈ List.range' 1 written := blocks ▸ mem_map_of_mem member
      rw [mem_range'_1] at listed
      omega
    · rw [persisted] at stored
      exact persistItems_found 1 here stored
    · rw [persisted]
      exact persistItems_complete shapes (by omega)

theorem commit_right_mkdir :
    ∃ hdr, build [.plain .inodeCreate rfl 5 0 0,.data .dirAdd rfl 5 0 0 64,.plain .inodeUpdate rfl 1 0 0,.data .dirAdd rfl 1 96 0 32] =
      some hdr ∧ nrLogBlocks hdr = 5 ∧
      Right [.plain .inodeCreate rfl 5 0 0,.data .dirAdd rfl 5 0 0 64,.plain .inodeUpdate rfl 1 0 0,.data .dirAdd rfl 1 96 0 32] hdr :=
  ⟨_,rfl,by decide,(commit_right_iff rfl).mpr (by decide)⟩

def fileItems (inodeNo : Nat) (entries : List FileEntry) : List Item :=
  entries.map fun e => .data .file rfl inodeNo e.offset e.base (UInt32.ofNat e.length)

theorem gap_entries : writeEntries 4096 (2 ^ 29) =
    [⟨4096,2 ^ 27,0⟩,⟨4096 + 2 ^ 27,2 ^ 27,2 ^ 27⟩,⟨4096 + 2 * 2 ^ 27,2 ^ 27,2 * 2 ^ 27⟩,⟨4096 + 3 * 2 ^ 27,2 ^ 27,3 * 2 ^ 27⟩] := by
  decide +kernel

-- Such a write returns only when another thread asks for a digest: the head goes to the beginning and its version
-- catches up.
def oversizedRun : List LogRing.Action :=
  [.enter 1,.reserve,.check,.recheck,.commit fun _ => ⟨0,0⟩,.enter 1,.reserve,.check,.recheck,.commit fun _ => ⟨0,0⟩,
    .enter 131072,.reserve,.check,.recheck,.request,.kernfs fun _ => ⟨0,0⟩,.respond,.check,.recheck]

-- One byte at 2^29 + 4096 of a file of 2^29 bytes: the nested write takes 131073 blocks, and the field is 1.
theorem gap_needs_more_blocks :
    (∃ hdr, mlfsFileWrite 2 false (2 ^ 29) 1 (2 ^ 29 + 4096) =
        some (2 ^ 29 + 4097,[⟨true,writeEntries 4096 (2 ^ 29)⟩,⟨false,[⟨2 ^ 29 + 4096,1,0⟩]⟩]) ∧
      build (fileItems 2 (writeEntries 4096 (2 ^ 29))) = some hdr ∧ nrLogBlocks hdr = 131073 ∧ commitLog hdr = [] ∧
      ¬ Right (fileItems 2 (writeEntries 4096 (2 ^ 29))) hdr) ∧
    ∃ s, Lib.Runs.run (LogRing.step 30) (LogRing.initLog 616960 fun _ => ⟨0,0⟩) oversizedRun = some s ∧
      s.phase = .allocated 616961 131073 := by
  refine ⟨?_,?_⟩
  · have built : ∃ hdr, build (fileItems 2 (writeEntries 4096 (2 ^ 29))) = some hdr ∧ nrLogBlocks hdr = 131073 ∧ commitLog hdr = [] := by
      rw [gap_entries]
      exact ⟨_,rfl,by decide +kernel,by decide +kernel⟩
    obtain ⟨hdr,built,count,stopped⟩ := built
    refine ⟨hdr,?_,built,count,stopped,fun right => ?_⟩
    · rw [gap_entries]
      decide +kernel
    · have field := right.field
      rw [count] at field
      exact absurd field (by decide)
  · have ran : (Lib.Runs.run (LogRing.step 30) (LogRing.initLog 616960 fun _ => ⟨0,0⟩) oversizedRun).map LogRing.State.phase =
        some (.allocated 616961 131073) := by decide +kernel
    exact map_eq_some_iff.mp ran

end Assise.LogBlocks
