import Assise.Bitmap
import Assise.Lib.Runs
import Mathlib.Logic.Function.Basic
import Mathlib.Data.Finset.Card
import Mathlib.Data.Finset.Range

-- The DRAM read cache: a bitmap of slots, the LRU list of the blocks that have one and its count, and in each inode
-- an index, which also has the blocks that only the log has patches for.
namespace Assise.ReadCache
open Bitmap Lib.Runs Function List

def gMaxReadCacheBlocks : Nat := 2 ^ 18

-- struct fcache_block. `data` is the slot that it points to, if `is_data_cached` is set.
structure FcacheBlock where
  inum : Nat
  key : Nat
  data : Option Nat
deriving DecidableEq, Repr

-- `blocks` has the blocks that were allocated, at addresses below `next`, and are not freed. The indexes and the list hold
-- addresses.
structure Cache where
  blocks : Nat → Option FcacheBlock
  next : Nat
  fcacheHash : Nat → Nat → Option Nat
  lruHead : List Nat
  n : Nat
  bitmap : Nat → Bool

def empty : Cache := ⟨fun _ => none,0,fun _ _ => none,[],0,fun _ => false⟩

def fcacheAllocAdd (c : Cache) (inum key : Nat) : Cache :=
  { c with
    blocks := update c.blocks c.next (some ⟨inum,key,none⟩)
    next := c.next + 1
    fcacheHash := update c.fcacheHash inum (update (c.fcacheHash inum) key (some c.next)) }

-- A key that the index does not have: `kh_exist` tests a flag behind the last bucket, taken for that of an empty one.
def fcacheDel (c : Cache) (inum key : Nat) : Cache :=
  { c with fcacheHash := update c.fcacheHash inum (update (c.fcacheHash inum) key none) }

-- Along the list, from the oldest. `inum` is the inode that a block is inserted for.
def evictReadCache (inum nEntriesToEvict : Nat) : Nat → List Nat → Cache → Option Cache
  | _,[],c => some c
  | i,p :: newer,c =>
    if nEntriesToEvict < i then some c
    else (c.blocks p).bind fun block =>
      match block.data with
      | none => evictReadCache inum nEntriesToEvict i newer c
      | some j =>
        evictReadCache inum nEntriesToEvict (i + 1) newer
          { fcacheDel c inum block.key with
            bitmap := update c.bitmap j false
            lruHead := c.lruHead.erase p
            blocks := update c.blocks p none
            n := c.n - 1 }

def blockFor (c : Cache) (inum key : Nat) : Option (Nat × Cache) :=
  match c.fcacheHash inum key with
  | none => some (c.next,{ fcacheAllocAdd c inum key with n := c.n + 1 })
  -- `mlfs_assert(_fcache_block->is_data_cached == 0)`
  | some p => if (c.blocks p).map FcacheBlock.data = some none then some (p,c) else none

def takeSlot (c : Cache) (p : Nat) : Cache :=
  let j := findNextZeroBit c.bitmap (gMaxReadCacheBlocks - 1) 0
  { c with
    bitmap := update c.bitmap j true
    blocks := update c.blocks p ((c.blocks p).map fun block => { block with data := some j })
    lruHead := p :: c.lruHead.erase p }

def addToReadCache (c : Cache) (inum key : Nat) : Option Cache :=
  (if gMaxReadCacheBlocks < c.n + 1 then evictReadCache inum ((c.n - gMaxReadCacheBlocks) % 2 ^ 32) 0 c.lruHead.reverse c
    else some c).bind fun c => (blockFor c inum key).map fun (p,c) => takeSlot c p

-- `patch` is a write to the log, which leaves a block in the index for its patches.
inductive Action where
  | insert (inum key : Nat)
  | patch (inum key : Nat)
deriving DecidableEq, Repr

def step (c : Cache) : Action → Option Cache
  | .insert inum key => addToReadCache c inum key
  | .patch inum key => some (if c.fcacheHash inum key = none then fcacheAllocAdd c inum key else c)

def slotOf (c : Cache) (p : Nat) : Option Nat := (c.blocks p).bind FcacheBlock.data

structure Slots (bitmap : Nat → Bool) (slot : Nat → Option Nat) (lruHead : List Nat) : Prop where
  bits : ∀ j, bitmap j = true ↔ ∃ p, slot p = some j
  apart : ∀ p q j, slot p = some j → slot q = some j → p = q
  nodup : lruHead.Nodup
  listed : ∀ p, p ∈ lruHead ↔ ∃ j, slot p = some j

-- An index has no block that was freed or that another inode owns.
structure Accounted (c : Cache) : Prop extends Slots c.bitmap (slotOf c) c.lruHead where
  count : c.n = c.lruHead.length
  most : c.n ≤ gMaxReadCacheBlocks
  owned : ∀ inum key p, c.fcacheHash inum key = some p → ∃ block, c.blocks p = some block ∧ block.inum = inum ∧ block.key = key

-- The inode has no block for its patches there, and a full cache has a block of the inode as its oldest one.
def FromOwnInode (c : Cache) : Action → Prop
  | .insert inum key => c.fcacheHash inum key = none ∧
    (gMaxReadCacheBlocks ≤ c.n → ∀ p ∈ c.lruHead.getLast?, (c.blocks p).map FcacheBlock.inum = some inum)
  | .patch .. => True

structure Indexed (blocks : Nat → Option FcacheBlock) (next : Nat) (hash : Nat → Nat → Option Nat) : Prop where
  owned : ∀ inum key p, hash inum key = some p → ∃ block, blocks p = some block ∧ block.inum = inum ∧ block.key = key
  indexed : ∀ p block, blocks p = some block → hash block.inum block.key = some p
  fresh : ∀ p, next ≤ p → blocks p = none

structure Inv (c : Cache) : Prop extends Accounted c,Indexed c.blocks c.next c.fcacheHash

section
variable {bitmap : Nat → Bool} {slot : Nat → Option Nat} {list : List Nat} {p j : Nat}

theorem update_eq_some {α : Type} {f : Nat → Option α} {v : Option α} {q : Nat} {a : α} :
    update f p v q = some a ↔ q = p ∧ v = some a ∨ q ≠ p ∧ f q = some a := by
  by_cases same : q = p
  · simp [same]
  · simp [same]

theorem Slots.take (slots : Slots bitmap slot list) (clear : bitmap j = false) (bare : slot p = none) :
    Slots (update bitmap j true) (update slot p (some j)) (p :: list) := by
  have unused : ∀ q, slot q ≠ some j := fun q here => by
    rw [(slots.bits j).mpr ⟨q,here⟩] at clear
    cases clear
  have others : ∀ q k, slot q = some k → q ≠ p := by
    rintro q k here rfl
    rw [bare] at here
    cases here
  have unlisted : p ∉ list := fun member => by
    obtain ⟨k,here⟩ := (slots.listed p).mp member
    exact others p k here rfl
  refine ⟨fun k => ?_,fun q r k one two => ?_,nodup_cons.mpr ⟨unlisted,slots.nodup⟩,fun q => ?_⟩
  · by_cases same : k = j
    · rw [same,update_self]
      exact iff_of_true rfl ⟨p,update_self ..⟩
    · rw [update_of_ne same,slots.bits]
      refine exists_congr fun q => ⟨fun here => update_eq_some.mpr (.inr ⟨others q k here,here⟩),fun here => ?_⟩
      rcases update_eq_some.mp here with ⟨_,new⟩ | ⟨_,old⟩
      · exact absurd (Option.some.inj new).symm same
      · exact old
  · rcases update_eq_some.mp one with ⟨rfl,new⟩ | ⟨_,old⟩ <;> rcases update_eq_some.mp two with ⟨rfl,new'⟩ | ⟨_,old'⟩
    · rfl
    · exact absurd (new ▸ old') (unused r)
    · exact absurd (new' ▸ old) (unused q)
    · exact slots.apart q r k old old'
  · rw [mem_cons,slots.listed]
    refine ⟨?_,fun ⟨k,here⟩ => ?_⟩
    · rintro (rfl | ⟨k,here⟩)
      · exact ⟨j,update_self ..⟩
      · exact ⟨k,update_eq_some.mpr (.inr ⟨others q k here,here⟩)⟩
    · exact (update_eq_some.mp here).imp And.left fun old => ⟨k,old.2⟩

theorem Slots.free (slots : Slots bitmap slot list) (here : slot p = some j) :
    Slots (update bitmap j false) (update slot p none) (list.erase p) := by
  have kept : ∀ q k, update slot p none q = some k ↔ q ≠ p ∧ slot q = some k := fun q k => by
    rw [update_eq_some]
    simp
  refine ⟨fun k => ?_,fun q r k one two => ?_,slots.nodup.erase p,fun q => ?_⟩
  · simp only [kept]
    by_cases same : k = j
    · rw [same,update_self]
      refine iff_of_false Bool.false_ne_true ?_
      rintro ⟨q,other,there⟩
      exact other (slots.apart q p j there here)
    · rw [update_of_ne same,slots.bits]
      refine exists_congr fun q => ⟨fun there => ⟨?_,there⟩,And.right⟩
      rintro rfl
      exact same (Option.some.inj (there.symm.trans here))
  · exact slots.apart q r k ((kept q k).mp one).2 ((kept r k).mp two).2
  · simp only [kept,slots.nodup.mem_erase_iff,slots.listed,exists_and_left]

end

section
variable {blocks : Nat → Option FcacheBlock} {next inum key p : Nat} {hash : Nat → Nat → Option Nat} {block : FcacheBlock}

theorem hash_update (v : Option Nat) (i k : Nat) :
    update hash inum (update (hash inum) key v) i k = if i = inum ∧ k = key then v else hash i k := by
  by_cases own : i = inum
  · subst own
    rw [update_self,update_apply]
    simp
  · rw [update_of_ne own,if_neg fun both => own both.1]

theorem Indexed.add (index : Indexed blocks next hash) (absent : hash inum key = none) :
    Indexed (update blocks next (some ⟨inum,key,none⟩)) (next + 1) (update hash inum (update (hash inum) key (some next))) := by
  have old : ∀ p block, blocks p = some block → p ≠ next := by
    rintro p block live rfl
    rw [index.fresh _ le_rfl] at live
    cases live
  refine ⟨fun i k p found => ?_,fun p block live => ?_,fun p high => ?_⟩
  · rw [hash_update] at found
    split at found
    · rename_i same
      cases found
      exact ⟨_,update_self ..,same.1.symm,same.2.symm⟩
    · obtain ⟨block,live,both⟩ := index.owned i k p found
      exact ⟨block,(update_of_ne (old p block live) ..).trans live,both⟩
  · rw [hash_update]
    rcases update_eq_some.mp live with ⟨rfl,new⟩ | ⟨_,live⟩
    · cases new
      exact if_pos ⟨rfl,rfl⟩
    · have found := index.indexed p block live
      refine (if_neg ?_).trans found
      rintro ⟨rfl,rfl⟩
      rw [absent] at found
      cases found
  · rw [update_of_ne (by omega)]
    exact index.fresh p (by omega)

theorem Indexed.set (index : Indexed blocks next hash) (live : blocks p = some block) (data : Option Nat) :
    Indexed (update blocks p (some { block with data := data })) next hash := by
  refine ⟨fun i k q found => ?_,fun q entry there => ?_,fun q high => ?_⟩
  · obtain ⟨entry,there,both⟩ := index.owned i k q found
    by_cases same : q = p
    · subst same
      cases live.symm.trans there
      exact ⟨_,update_self ..,both⟩
    · exact ⟨entry,(update_of_ne same ..).trans there,both⟩
  · rcases update_eq_some.mp there with ⟨rfl,new⟩ | ⟨_,there⟩
    · cases new
      exact index.indexed q block live
    · exact index.indexed q entry there
  · rw [update_of_ne,index.fresh q high]
    rintro rfl
    rw [index.fresh q high] at live
    cases live

theorem Indexed.remove (index : Indexed blocks next hash) (live : blocks p = some block) :
    Indexed (update blocks p none) next (update hash block.inum (update (hash block.inum) block.key none)) := by
  have own := index.indexed p block live
  refine ⟨fun i k q found => ?_,fun q entry there => ?_,fun q high => ?_⟩
  · rw [hash_update] at found
    obtain ⟨other,found⟩ := Option.ite_none_left_eq_some.mp found
    obtain ⟨entry,there,both⟩ := index.owned i k q found
    refine ⟨entry,(update_of_ne ?_ ..).trans there,both⟩
    rintro rfl
    cases live.symm.trans there
    exact other ⟨both.1.symm,both.2.symm⟩
  · obtain ⟨_,none⟩ | ⟨other,there⟩ := update_eq_some.mp there
    · cases none
    · have found := index.indexed q entry there
      rw [hash_update]
      refine (if_neg ?_).trans found
      rintro ⟨inum,key⟩
      rw [inum,key] at found
      exact other (Option.some.inj (found.symm.trans own))
  · rw [update_apply,index.fresh q high,ite_self]

end

variable {c : Cache} {inum key p j : Nat} {block : FcacheBlock}

theorem slotOf_update (v : Option FcacheBlock) :
    (fun q => (update c.blocks p v q).bind FcacheBlock.data) = update (slotOf c) p (v.bind FcacheBlock.data) :=
  funext fun q => apply_update (fun _ (block : Option FcacheBlock) => block.bind FcacheBlock.data) c.blocks p v q

theorem Inv.empty : Inv empty := by
  refine ⟨⟨⟨fun j => ?_,fun _ _ _ found => ?_,nodup_nil,fun p => ?_⟩,rfl,Nat.zero_le _,fun _ _ _ found => ?_⟩,fun _ _ found => ?_,
    fun _ _ => rfl⟩
  · simp [ReadCache.empty,slotOf]
  · cases found
  · simp [ReadCache.empty,slotOf]
  · cases found
  · cases found

theorem Inv.alloc (inv : Inv c) (absent : c.fcacheHash inum key = none) : Inv (fcacheAllocAdd c inum key) := by
  have index := inv.toIndexed.add absent
  have slots : slotOf (fcacheAllocAdd c inum key) = slotOf c := by
    refine (slotOf_update _).trans (update_eq_self_iff.mpr ?_)
    rw [slotOf,inv.fresh c.next (Nat.le_refl _)]
    rfl
  have same : Slots c.bitmap (slotOf (fcacheAllocAdd c inum key)) c.lruHead := slots ▸ inv.toSlots
  exact ⟨⟨same,inv.count,inv.most,index.owned⟩,index.indexed,index.fresh⟩

-- The search leaves out the last slot, which it returns when all others are taken.
theorem Inv.slot_clear (inv : Inv c) (room : c.n < gMaxReadCacheBlocks) :
    c.bitmap (findNextZeroBit c.bitmap (gMaxReadCacheBlocks - 1) 0) = false := by
  have searched := findNextZeroBit_spec c.bitmap (by decide : 0 < gMaxReadCacheBlocks - 1)
  by_contra taken
  have set : ∀ j < gMaxReadCacheBlocks, c.bitmap j = true := fun j less => by
    have last : ¬ findNextZeroBit c.bitmap (gMaxReadCacheBlocks - 1) 0 < gMaxReadCacheBlocks - 1 := fun inside =>
      taken (searched.zero inside).2
    have bound := searched.bound
    by_cases before : j < findNextZeroBit c.bitmap (gMaxReadCacheBlocks - 1) 0
    · exact searched.passed j (Nat.zero_le _) before
    · have same : j = findNextZeroBit c.bitmap (gMaxReadCacheBlocks - 1) 0 := by omega
      rw [same]
      exact Bool.eq_true_of_not_eq_false taken
  have all : Finset.range gMaxReadCacheBlocks ⊆ (c.lruHead.filterMap (slotOf c)).toFinset := fun j less => by
    obtain ⟨p,slot⟩ := (inv.bits j).mp (set j (Finset.mem_range.mp less))
    exact mem_toFinset.mpr (mem_filterMap.mpr ⟨p,(inv.listed p).mpr ⟨j,slot⟩,slot⟩)
  have many := (Finset.card_le_card all).trans ((toFinset_card_le _).trans (length_filterMap_le ..))
  rw [Finset.card_range,← inv.count] at many
  omega

theorem Inv.slotTaken (inv : Inv c) (live : c.blocks p = some block) (bare : block.data = none) (room : c.n < gMaxReadCacheBlocks) :
    Inv { takeSlot c p with n := c.n + 1 } := by
  have clear := inv.slot_clear room
  have none : slotOf c p = none := by rw [slotOf,live,Option.bind_some,bare]
  have unlisted : p ∉ c.lruHead := fun member => by
    obtain ⟨k,slot⟩ := (inv.listed p).mp member
    rw [none] at slot
    cases slot
  unfold takeSlot
  generalize findNextZeroBit c.bitmap (gMaxReadCacheBlocks - 1) 0 = j at clear
  dsimp only
  rw [erase_of_not_mem unlisted,live,Option.map_some]
  have slots := inv.toSlots.take clear none
  have index := inv.toIndexed.set live (some j)
  refine ⟨⟨?_,congrArg (· + 1) inv.count,room,index.owned⟩,index.indexed,index.fresh⟩
  exact (congrArg (Slots _ · _) (slotOf_update (some { block with data := some j }))).mpr slots

theorem Inv.drop (inv : Inv c) (live : c.blocks p = some block) (slot : block.data = some j) :
    Inv { c with
      fcacheHash := update c.fcacheHash block.inum (update (c.fcacheHash block.inum) block.key none)
      bitmap := update c.bitmap j false
      lruHead := c.lruHead.erase p
      blocks := update c.blocks p none
      n := c.n - 1 } := by
  have here : slotOf c p = some j := by rw [slotOf,live,Option.bind_some,slot]
  have slots := inv.toSlots.free here
  have index := inv.toIndexed.remove live
  refine ⟨⟨(congrArg (Slots _ · _) (slotOf_update none)).mpr slots,?_,Nat.le_trans (Nat.sub_le ..) inv.most,index.owned⟩,index.indexed,index.fresh⟩
  rw [length_erase_of_mem ((inv.listed p).mpr ⟨j,here⟩),inv.count]

theorem evictReadCache_stop {nEntriesToEvict i : Nat} (enough : nEntriesToEvict < i) (list : List Nat) :
    evictReadCache inum nEntriesToEvict i list c = some c := by
  cases list with
  | nil => rfl
  | cons p newer =>
    unfold evictReadCache
    rw [if_pos enough]

-- A full cache gives up its oldest block. The count of blocks to evict is 0 then, but the loop stops behind it.
theorem Inv.evict (inv : Inv c) (key : Nat) (full : gMaxReadCacheBlocks ≤ c.n)
    (own : ∀ p ∈ c.lruHead.getLast?, (c.blocks p).map FcacheBlock.inum = some inum) :
    ∃ after, evictReadCache inum ((c.n - gMaxReadCacheBlocks) % 2 ^ 32) 0 c.lruHead.reverse c = some after ∧ Inv after ∧
      after.n < gMaxReadCacheBlocks ∧ (c.fcacheHash inum key = none → after.fcacheHash inum key = none) := by
  have same : c.n = gMaxReadCacheBlocks := Nat.le_antisymm inv.most full
  rcases eq_nil_or_concat' c.lruHead with nil | ⟨front,p,list⟩
  · have count := inv.count
    rw [nil,same] at count
    exact absurd count (by decide)
  · obtain ⟨j,slot⟩ := (inv.listed p).mp (by rw [list]; simp)
    obtain ⟨block,live,data⟩ := Option.bind_eq_some_iff.mp slot
    have owner := own p (by rw [list,getLast?_concat]; rfl)
    rw [live,Option.map_some,Option.some.injEq] at owner
    subst owner
    refine ⟨_,?_,inv.drop live data,?_,fun absent => ?_⟩
    · have order : c.lruHead.reverse = p :: front.reverse := by rw [list,reverse_concat]
      have most : (c.n - gMaxReadCacheBlocks) % 2 ^ 32 = 0 := by rw [same,Nat.sub_self,Nat.zero_mod]
      rw [order,most]
      unfold evictReadCache
      rw [if_neg (Nat.lt_irrefl 0),live,Option.bind_some,data]
      exact evictReadCache_stop Nat.zero_lt_one _
    · dsimp only
      rw [same]
      decide
    · dsimp only
      rw [hash_update,absent,ite_self]

theorem Inv.step {action : Action} {after : Cache} (inv : Inv c) (ok : FromOwnInode c action) (done : step c action = some after) :
    Inv after := by
  cases action with
  | patch inum key =>
    cases done
    split
    · rename_i absent
      exact inv.alloc absent
    · exact inv
  | insert inum key =>
    obtain ⟨absent,own⟩ := ok
    have insertion : ∀ c, Inv c → c.n < gMaxReadCacheBlocks → c.fcacheHash inum key = none →
        ((blockFor c inum key).map fun (p,c) => takeSlot c p) = some after → Inv after := by
      intro c inv room absent rest
      rw [blockFor,absent] at rest
      cases rest
      exact (inv.alloc absent).slotTaken (update_self ..) rfl room
    unfold ReadCache.step addToReadCache at done
    obtain ⟨c',first,rest⟩ := Option.bind_eq_some_iff.mp done
    split at first
    · rename_i full
      obtain ⟨c₁,evicted,inv₁,room,gone⟩ := inv.evict key (Nat.le_of_lt_succ full) (own (Nat.le_of_lt_succ full))
      rw [evicted] at first
      cases first
      exact insertion c' inv₁ room (gone absent) rest
    · rename_i room
      cases first
      exact insertion c inv (by omega) absent rest

theorem read_cache_accounted (actions : List Action) (c : Cache) (ok : Guarded step FromOwnInode empty actions)
    (ran : run step empty actions = some c) : Accounted c :=
  (invariant_run step FromOwnInode Inv (fun _ _ _ inv ok done => inv.step ok done) empty c actions Inv.empty ok ran).toAccounted

instance (c : Cache) : ∀ action, Decidable (FromOwnInode c action)
  | .insert .. => inferInstanceAs (Decidable (_ ∧ (_ → ∀ p ∈ _, _)))
  | .patch .. => .isTrue trivial

theorem read_cache_accounted_two_inodes :
    ∃ c, run step empty [.insert 5 0,.patch 5 1,.insert 7 0] = some c ∧ c.n = 2 ∧ c.lruHead = [2,0] ∧ Accounted c := by
  refine Exists.imp (fun c (found : _ ∧ _ ∧ _) => ⟨found.1,found.2.1,found.2.2,
    read_cache_accounted [.insert 5 0,.patch 5 1,.insert 7 0] c (by decide +kernel) found.1⟩) ?_
  decide +kernel

-- A block that the log has a patch for is in the index already and is cached without being counted.
theorem patched_block_uncounted :
    ∃ c, run step empty [.patch 5 0,.insert 5 0] = some c ∧ c.lruHead = [0] ∧ c.n = 0 ∧ ¬ Accounted c := by
  obtain ⟨c,ran,list,count⟩ : ∃ c, run step empty [.patch 5 0,.insert 5 0] = some c ∧ c.lruHead = [0] ∧ c.n = 0 := by
    decide +kernel
  refine ⟨c,ran,list,count,fun accounted => ?_⟩
  have same := accounted.count
  rw [count,list] at same
  cases same

end Assise.ReadCache
