import Assise.Contents
import Assise.MigrationLists

-- Migration of file blocks from one device to the next lower one, where they are read if the tree of the upper device
-- does not have them.
namespace Assise.Migration
open FileMap Extents Digest Lib.Spans Option
open Function hiding extend
open MapTable (gBlockSizeBytes)

-- A block of `from_dev` is read through the map table and copied without it.
abbrev Block := Fin gBlockSizeBytes → UInt8

structure Tiers where
  upper : File
  lower : File
  size : Nat

structure Copy where
  target : Nat
  blknr : Nat

-- An entry is one block (`LRU_ENTRY_SIZE`), so the loops over the blocks of an entry make one round.
def doMigrateBlocks (t : Tiers) (lblock blknr : Nat) : Option (Tiers × Copy) :=
  (step t.lower (.create lblock 1)).bind fun (map,lower) =>
    if map.mPblk = 0 ∨ map.ret ≠ 1 then none
    else some ({ t with lower := lower,size := max t.size ((lblock + 1) * gBlockSizeBytes) },⟨map.mPblk,blknr⟩)

def copyBlocks : List Nat → Tiers → Option (Tiers × List Nat × List Copy)
  | [],t => some (t,[],[])
  | lblock :: rest,t => (step t.upper (.lookup lblock 1)).bind fun (map,_) =>
    if map.ret = 0 then copyBlocks rest t
    else if map.mPblk = 0 then none
    else (doMigrateBlocks t lblock map.mPblk).bind fun (t,copy) =>
      (copyBlocks rest t).map fun (t,success,copies) => (t,success ++ [lblock],copy :: copies)

def cutBlocks : List Nat → Tiers → Option Tiers
  | [],t => some t
  | lblock :: rest,t =>
    if t.size < (lblock + 1) * gBlockSizeBytes then none
    else (step t.upper (.truncate lblock lblock)).bind fun (_,upper) => cutBlocks rest { t with upper := upper }

def migrateBlocks (list : List Nat) (t : Tiers) : Option (Tiers × List Copy) :=
  (copyBlocks list t).bind fun (t,success,copies) => (cutBlocks success t).map (·,copies)

def written (nvm : Nat → Block) (copies : List Copy) (disk : Nat → Block) : Nat → Block :=
  copies.foldl (fun disk copy => update disk copy.target (nvm copy.blknr)) disk

-- `home` is where the map table of `from_dev` has a block; other devices have no table.
def readBlock (home : Nat → Nat) (nvm disk : Nat → Block) (t : Tiers) (k : Nat) : Option Block :=
  match t.upper.map k with
  | some b => some (nvm (home b))
  | none => (t.lower.map k).map disk

structure Preserves (home : Nat → Nat) (t after : Tiers) (copies : List Copy) : Prop where
  size : after.size = t.size
  bytes : ∀ nvm disk k, k * gBlockSizeBytes < t.size →
    readBlock home nvm (written nvm copies disk) after k = readBlock home nvm disk t k

structure FreedOnce (held : Multiset Nat) (list : List Nat) (t after : Tiers) : Prop where
  left : ∀ k, after.upper.map k = if k ∈ list then none else t.upper.map k
  once : Consistent held after.upper

-- The map table has the listed blocks where the tree says, and they lie within the file.
def AtHome (home : Nat → Nat) (list : List Nat) (t : Tiers) : Prop :=
  ∀ k ∈ list, ∀ b, t.upper.map k = some b → home b = b ∧ (k + 1) * gBlockSizeBytes ≤ t.size

variable {held : Multiset Nat} {f f' : File} {t t' : Tiers} {k b : Nat} {map : MapResult}

theorem lookup_spec (treeOk : TreeOk f.root) (done : step f (.lookup k 1) = some (map,f')) :
    (map.ret = 0 ↔ f.map k = none) ∧ (map.ret ≠ 0 → f.map k = some map.mPblk) := by
  obtain ⟨⟨result,root,sb⟩,got,same⟩ := map_eq_some_iff.mp done
  cases same
  have hit : result.ret ≠ 0 → f.map k = some result.mPblk := fun found => by
    have reply := lookup_found treeOk got found
    exact reply.agrees 0 reply.positive
  refine ⟨⟨fun none => ?_,fun none => ?_⟩,hit⟩
  · by_contra mapped
    obtain ⟨b,there⟩ := ne_none_iff_exists'.mp mapped
    obtain ⟨result',again,found,_⟩ := lookup_tree treeOk Nat.zero_lt_one (mapped_inside treeOk there)
    rw [got] at again
    cases again
    exact absurd none (Nat.ne_of_gt (found mapped).positive)
  · by_contra found
    rw [hit found] at none
    cases none

theorem mapped_held (mapped : f.map k = some b) : b ∈ f.blocks := by
  obtain ⟨e,member,_,_,inside⟩ := blockMap_owned mapped
  exact Multiset.mem_add.mpr (Or.inl (mem_extentBlocks member (mem_span.mp inside)))

section
variable (consistent : Consistent held f)
include consistent

theorem device_once : (f.sb.free + (held + f.blocks)).Nodup := by
  rw [consistent.device.total]
  exact nodup_span ..

theorem map_injective {j : Nat} (first : f.map k = some b) (second : f.map j = some b) : k = j := by
  have blocks : f.blocks.Nodup := (Multiset.nodup_add.mp (Multiset.nodup_add.mp (device_once consistent)).2.1).2.1
  exact blockMap_injective (Multiset.nodup_add.mp blocks).1 first second

theorem free_unmapped (free : b ∈ f.sb.free) : f.map k ≠ some b := fun mapped => by
  have apart := (Multiset.nodup_add.mp (device_once consistent)).2.2
  exact Multiset.disjoint_left.mp apart free (Multiset.mem_add.mpr (Or.inr (mapped_held mapped)))

theorem create_spec (inside : k < extMaxBlocks)
    (done : step f (.create k 1) = some (map,f')) :
    Consistent held f' ∧ f'.map = update f.map k (some map.mPblk) ∧ ∀ j, j ≠ k → f.map j ≠ some map.mPblk := by
  obtain ⟨⟨result,root,sb⟩,got,same⟩ := map_eq_some_iff.mp done
  cases same
  have reach : ReachesNoLaterBlock f.map k 1 := by
    by_cases unmapped : f.map k = none
    · refine Or.inr fun i less => ?_
      cases Nat.lt_one_iff.mp less
      exact unmapped
    · exact Or.inl ⟨k,Nat.le_refl _,unmapped⟩
  obtain ⟨result',root',sb',again,after,hit,fresh⟩ :=
    create_ok consistent Nat.zero_lt_one (by decide) inside reach (Or.inr (by rw [got]; rfl))
  rw [got] at again
  cases again
  refine ⟨after,?_⟩
  by_cases unmapped : f.map k = none
  · have new := fresh unmapped
    have one : result.ret = 1 := Nat.le_antisymm new.most new.positive
    refine ⟨?_,fun j _ => free_unmapped consistent (new.free 0 new.positive)⟩
    refine new.extended.trans ?_
    funext j
    rw [one,extend,update_apply]
    by_cases same : j = k
    · rw [if_pos (by omega),if_pos same,same,Nat.sub_self,Nat.add_zero]
    · rw [if_neg (by omega),if_neg same]
  · obtain ⟨reply,kept⟩ := hit unmapped
    have here : f.map k = some result.mPblk := reply.agrees 0 reply.positive
    refine ⟨?_,fun j other there => other (map_injective consistent there here)⟩
    rw [← here,update_eq_self]
    exact kept

end

structure Copied (held : Multiset Nat) (list : List Nat) (t t' : Tiers) (success : List Nat) (copies : List Copy) : Prop where
  upper : t'.upper = t.upper
  lower : Consistent held t'.lower
  found : ∀ k, k ∈ success ↔ k ∈ list ∧ t.upper.map k ≠ none
  size : ∀ n, t'.size ≤ n ↔ t.size ≤ n ∧ ∀ k ∈ success, (k + 1) * gBlockSizeBytes ≤ n
  read : ∀ nvm disk k, (t'.lower.map k).map (written nvm copies disk) =
    if k ∈ success then (t.upper.map k).map nvm else (t.lower.map k).map disk

theorem copyBlocks_copied {list success : List Nat} {copies : List Copy} (treeOk : TreeOk t.upper.root) (lower : Consistent held t.lower)
    (done : copyBlocks list t = some (t',success,copies)) : Copied held list t t' success copies := by
  induction list generalizing t success copies with
  | nil =>
    cases done
    exact ⟨rfl,lower,by simp,by simp,fun _ _ _ => (if_neg (List.not_mem_nil)).symm⟩
  | cons k rest ih =>
    unfold copyBlocks at done
    obtain ⟨⟨map,f⟩,looked,done⟩ := bind_eq_some_iff.mp done
    obtain ⟨missing,found⟩ := lookup_spec treeOk looked
    dsimp only at done
    split at done
    · rename_i none
      have copied := ih treeOk lower done
      refine { copied with found := fun j => ?_ }
      rw [copied.found,List.mem_cons]
      constructor
      · exact fun both => ⟨Or.inr both.1,both.2⟩
      · rintro ⟨rfl | later,mapped⟩
        · exact absurd (missing.mp none) mapped
        · exact ⟨later,mapped⟩
    · rename_i some_
      obtain ⟨_,done⟩ := ite_none_left_eq_some.mp done
      obtain ⟨⟨t₁,copy⟩,moved,done⟩ := bind_eq_some_iff.mp done
      obtain ⟨⟨t₂,success₁,copies₁⟩,later,same⟩ := map_eq_some_iff.mp done
      cases same
      obtain ⟨⟨map₁,lower₁⟩,created,moved⟩ := bind_eq_some_iff.mp moved
      obtain ⟨_,moved⟩ := ite_none_left_eq_some.mp moved
      cases moved
      have here := found some_
      obtain ⟨consistent,after,others⟩ := create_spec lower (mapped_inside treeOk here) created
      have copied := ih (t:={ t with lower := lower₁,size := _ }) treeOk consistent later
      have last : ∀ j, j ∈ success₁ ++ [k] ↔ j ∈ success₁ ∨ j = k := fun j => by simp
      refine ⟨copied.upper,copied.lower,fun j => ?_,fun n => ?_,fun nvm disk j => ?_⟩
      · rw [last,copied.found,List.mem_cons]
        constructor
        · rintro (⟨later,mapped⟩ | rfl)
          · exact ⟨Or.inr later,mapped⟩
          · exact ⟨Or.inl rfl,by rw [here]; simp⟩
        · rintro ⟨rfl | later,mapped⟩
          · exact Or.inr rfl
          · exact Or.inl ⟨later,mapped⟩
      · rw [copied.size,max_le_iff,and_assoc]
        simp only [last,or_imp,forall_and,forall_eq,and_comm]
      · refine (copied.read nvm (update disk map₁.mPblk (nvm map.mPblk)) j).trans ?_
        by_cases again : j ∈ success₁
        · rw [if_pos again,if_pos ((last j).mpr (Or.inl again))]
        · rw [if_neg again,after]
          by_cases own : j = k
          · rw [if_pos ((last j).mpr (Or.inr own)),own,update_self,here,map_some,map_some,update_self]
          · -- the target of the copy is no block of another place
            rw [if_neg fun member => ((last j).mp member).elim again own,update_of_ne own]
            refine map_congr fun c there => update_of_ne ?_ ..
            rintro rfl
            exact others j own there

theorem cutBlocks_cut {success : List Nat} (upper : Consistent held t.upper) (done : cutBlocks success t = some t') :
    t'.lower = t.lower ∧ t'.size = t.size ∧ Consistent held t'.upper ∧
      ∀ k, t'.upper.map k = if k ∈ success then none else t.upper.map k := by
  induction success generalizing t with
  | nil =>
    cases done
    exact ⟨rfl,rfl,upper,fun k => by simp⟩
  | cons j rest ih =>
    unfold cutBlocks at done
    obtain ⟨_,done⟩ := ite_none_left_eq_some.mp done
    obtain ⟨⟨_,f⟩,cut,done⟩ := bind_eq_some_iff.mp done
    obtain ⟨⟨root,sb⟩,truncated,same⟩ := map_eq_some_iff.mp cut
    cases same
    have bound : j < extMaxBlocks - 1 := by
      by_contra high
      unfold mlfsExtTruncate mlfsExtRemoveSpace at truncated
      rw [if_pos (by omega)] at truncated
      cases truncated
    obtain ⟨root',sb',again,treeOk,punched⟩ := truncate_ok upper bound (Or.inr (by rw [truncated]; rfl))
    rw [truncated] at again
    cases again
    obtain ⟨lower,size,consistent,map⟩ := ih (t:={ t with upper := ⟨sb,root⟩ }) (upper.truncated truncated treeOk) done
    refine ⟨lower,size,consistent,fun k => (map k).trans ?_⟩
    have cut : File.map ⟨sb,root⟩ k = if k = j then none else t.upper.map k := by
      rw [File.map,punched,punch]
      by_cases same : k = j
      · rw [if_pos (by omega),if_pos same]
      · rw [if_neg (by omega),if_neg same]
    dsimp only
    rw [cut]
    by_cases same : k = j <;> by_cases later : k ∈ rest <;> simp [same,later]

section
variable {heldUpper heldLower : Multiset Nat} {copies : List Copy}
  (upper : Consistent heldUpper t.upper) (lower : Consistent heldLower t.lower)
include upper lower

theorem migrateBlocks_freed {list : List Nat}
    (done : migrateBlocks list t = some (t',copies)) : FreedOnce heldUpper list t t' := by
  obtain ⟨⟨t₁,success,copies₁⟩,copied,done⟩ := bind_eq_some_iff.mp done
  obtain ⟨t₂,cut,same⟩ := map_eq_some_iff.mp done
  cases same
  have copied := copyBlocks_copied upper.tree lower copied
  obtain ⟨_,_,consistent,map⟩ := cutBlocks_cut (by rw [copied.upper]; exact upper) cut
  rw [copied.upper] at map
  refine ⟨fun k => (map k).trans ?_,consistent⟩
  have found := copied.found k
  by_cases member : k ∈ list
  · by_cases mapped : t.upper.map k = none
    · simp [mapped]
    · rw [if_pos (found.mpr ⟨member,mapped⟩),if_pos member]
  · rw [if_neg fun success => member (found.mp success).1,if_neg member]

-- `MigrationLists` knows of the tree which blocks it has, and takes the same ones from it.
theorem lists_follow_tree {s s' : MigrationLists.Lists} {nodes : List MigrationLists.LruNode} {inum n : Nat} (own : ∀ node ∈ nodes, node.inum = inum)
    (same : ∀ k, s.mapped inum k = (t.upper.map k).isSome)
    (done : migrateBlocks (nodes.map (·.lblock)) t = some (t',copies))
    (listed : MigrationLists.migrateBlocks s nodes = some (s',n)) : s'.mapped inum k = (t'.upper.map k).isSome := by
  obtain ⟨_,branch⟩ := ite_none_left_eq_some.mp listed
  cases branch
  rw [(migrateBlocks_freed upper lower done).left k]
  dsimp only
  rw [same k]
  by_cases mapped : t.upper.map k = none
  · simp [mapped]
  · have there : s.mapped inum k = true := by rw [same,isSome_iff_ne_none]; exact mapped
    have hit : ((nodes.filter s.has).any fun node => node.inum = inum ∧ node.lblock = k) = decide (k ∈ nodes.map (·.lblock)) := by
      rw [Bool.eq_iff_iff]
      simp only [List.any_eq_true,List.mem_filter,decide_eq_true_eq,List.mem_map]
      constructor
      · rintro ⟨node,⟨member,_⟩,_,block⟩
        exact ⟨node,member,block⟩
      · rintro ⟨node,member,rfl⟩
        exact ⟨node,⟨member,by rw [MigrationLists.Lists.has,own node member]; exact there⟩,own node member,rfl⟩
    rw [hit]
    by_cases member : k ∈ nodes.map (·.lblock) <;> simp [member]

end

theorem migrate_preserves_iff (home : Nat → Nat) {heldUpper heldLower : Multiset Nat} {list : List Nat} {t after : Tiers}
    {copies : List Copy} (upper : Consistent heldUpper t.upper) (lower : Consistent heldLower t.lower)
    (done : migrateBlocks list t = some (after,copies)) :
    Preserves home t after copies ∧ FreedOnce heldUpper list t after ↔ AtHome home list t := by
  rw [and_iff_left (migrateBlocks_freed upper lower done)]
  obtain ⟨⟨t₁,success,copies₁⟩,copied,done⟩ := bind_eq_some_iff.mp done
  obtain ⟨t₂,cut,same⟩ := map_eq_some_iff.mp done
  cases same
  have copied := copyBlocks_copied upper.tree lower copied
  obtain ⟨lowered,size,_,map⟩ := cutBlocks_cut (by rw [copied.upper]; exact upper) cut
  rw [copied.upper] at map
  constructor
  · intro preserves k member b mapped
    have moved : k ∈ success := (copied.found k).mpr ⟨member,by rw [mapped]; simp⟩
    have inside : (k + 1) * gBlockSizeBytes ≤ t.size :=
      ((copied.size t.size).mp (size.symm.trans preserves.size).le).2 k moved
    refine ⟨?_,inside⟩
    -- block `b` of the upper device has ones and every other one zeros
    have byte := preserves.bytes (fun p _ => if p = b then 1 else 0) (fun _ _ => 0) k
      (lt_of_lt_of_le (Nat.mul_lt_mul_of_pos_right (Nat.lt_succ_self k) (by decide)) inside)
    rw [readBlock,readBlock,map,if_pos moved,mapped,lowered] at byte
    dsimp only at byte
    rw [copied.read,if_pos moved,mapped,map_some,some.injEq] at byte
    by_contra other
    have first := congrFun byte ⟨0,by decide⟩
    rw [if_pos rfl,if_neg other] at first
    exact absurd first (by decide)
  · intro atHome
    have whole : ∀ k ∈ success, ∃ b, t.upper.map k = some b ∧ home b = b ∧ (k + 1) * gBlockSizeBytes ≤ t.size := fun k moved => by
      obtain ⟨member,mapped⟩ := (copied.found k).mp moved
      obtain ⟨b,source⟩ := ne_none_iff_exists'.mp mapped
      exact ⟨b,source,atHome k member b source⟩
    refine ⟨size.trans (le_antisymm ?_ ((copied.size _).mp le_rfl).1),fun nvm disk k _ => ?_⟩
    · refine (copied.size t.size).mpr ⟨le_rfl,fun k moved => ?_⟩
      obtain ⟨_,_,_,inside⟩ := whole k moved
      exact inside
    · rw [readBlock,readBlock,map,lowered]
      by_cases moved : k ∈ success
      · obtain ⟨b,source,place,_⟩ := whole k moved
        rw [if_pos moved,source]
        dsimp only
        rw [copied.read,if_pos moved,source,map_some,place]
      · rw [if_neg moved,copied.read,if_neg moved]

theorem migrate_preserves_two_blocks : ∃ upper after copies, advance (newFile 100 10) (.create 0 2) = some upper ∧
    migrateBlocks [1,0] ⟨upper,newFile 100 10,8192⟩ = some (after,copies) ∧
    Preserves id ⟨upper,newFile 100 10,8192⟩ after copies ∧ FreedOnce 0 [1,0] ⟨upper,newFile 100 10,8192⟩ after := by
  have blank : Consistent 0 (newFile 100 10) := newFile_consistent (by decide) (by decide)
  obtain ⟨result,upper,done,consistent,_⟩ := step_ok blank (by decide +kernel : Admissible (newFile 100 10) (.create 0 2))
  have first : advance (newFile 100 10) (.create 0 2) = some upper := by
    rw [advance,done]
    rfl
  have whole : ((advance (newFile 100 10) (.create 0 2)).bind fun upper =>
      migrateBlocks [1,0] ⟨upper,newFile 100 10,8192⟩).isSome = true := by decide +kernel
  rw [first,bind_some] at whole
  obtain ⟨⟨after,copies⟩,ran⟩ := isSome_iff_exists.mp whole
  refine ⟨upper,after,copies,first,ran,(migrate_preserves_iff id consistent blank ran).mpr fun k member b mapped => ⟨rfl,?_⟩⟩
  have small : k ≤ 1 := by
    simp only [List.mem_cons,List.not_mem_nil,or_false] at member
    omega
  exact Nat.mul_le_mul_right _ (Nat.succ_le_succ small)

-- Block 10 of the file is at 50 since a digest, but the copy is made of 10. And a file of 100 bytes has 4096
-- afterwards.
theorem migrate_copies_other_block : ∃ upper after copies, advance (newFile 100 10) (.create 0 1) = some upper ∧
    migrateBlocks [0] ⟨upper,newFile 100 10,4096⟩ = some (after,copies) ∧
    ¬ Preserves (MapTable.home MapTable.table (MapTable.updateMapTable MapTable.table MapTable.Table.empty 10 50))
      ⟨upper,newFile 100 10,4096⟩ after copies ∧
    (migrateBlocks [0] ⟨upper,newFile 100 10,100⟩).map (·.1.size) = some 4096 := by
  refine ⟨_,_,_,rfl,rfl,fun preserves => ?_,by decide +kernel⟩
  have block := preserves.bytes (fun p _ => if p = 50 then 1 else 0) (fun _ _ => 0) 0 (by decide +kernel)
  have byte := congrArg (Option.map fun block : Block => block ⟨0,by decide⟩) block
  exact absurd byte (by decide +kernel)

end Assise.Migration
