import Assise.DigestEffects

-- Every block has one use, and the map table gives every block one home: what digests keep whatever
-- they allocate, exchange and free.
namespace Assise.Digest

open Balloc Extents MapTable Lib.Runs Lib.Spans
open LogRing (gLogSize)

structure Mapped (fs : KernFs) (n : Nat) (σ : Equiv.Perm Nat) : Prop where
  refines : Refines table n fs.map σ
  logs : fs.logStart + fs.logs * gLogSize ≤ n
  small : n ≤ 2 ^ 32

variable {n b inum mLblk mLen : Nat} {fs' : KernFs} {σ : Equiv.Perm Nat} {inode inode' : Inode} {map : MapResult}

variable {fs : KernFs} {σ : Equiv.Perm Nat}

theorem Mapped.apply (mapped : Mapped fs n σ) (op : MapOp)
    (valid : op.Valid n) : Mapped {fs with map := op.apply table fs.map} n (op.remap σ) :=
  ⟨apply_refines table n (fun _ bound => lt_of_lt_of_le bound mapped.small) fs.map σ op mapped.refines valid,
    mapped.logs,mapped.small⟩

theorem Mapped.transfer (mapped : ∃ n σ, Mapped fs n σ) (map : fs'.map = fs.map)
    (start : fs'.logStart = fs.logStart) (logs : fs'.logs = fs.logs) : ∃ n σ, Mapped fs' n σ := by
  obtain ⟨n,σ,known⟩ := mapped
  exact ⟨n,σ,map ▸ known.refines,by rw [start,logs]; exact known.logs,known.small⟩

theorem Mapped.home (mapped : Mapped fs n σ) (bound : b < n) :
    fs.home b = σ b := mapped.refines.homes b bound

theorem Mapped.injective (mapped : Mapped fs n σ) {a : Nat}
    (boundA : a < n) (boundB : b < n) (same : fs.home a = fs.home b) : a = b := by
  rw [mapped.home boundA,mapped.home boundB] at same
  exact σ.injective same

theorem home_lookup {c : Nat} (mapped : Mapped fs n σ) (boundB : b < n)
    (bound : c < n) : ({fs with map := (lblk2pblk table fs.map b).2} : KernFs).home c = fs.home c := by
  have looked := (mapped.apply (.lookup b) boundB).home bound
  rw [MapOp.remap,←mapped.home bound] at looked
  exact looked

-- Every block has one use: free, named by one extent or index entry, or `lost` by an unlink that
-- cleared a tree with blocks in it.
structure Owned (fs : KernFs) : Prop where
  balanced : ∃ lost, Balanced fs.sb (lost + fs.dataBlocks + fs.treeBlocks)
  area : fs.sb.numBlocks ≤ fs.logStart
  mapped : ∃ n σ, Mapped fs n σ

theorem Owned.below (owned : Owned fs) (used : b ∈ fs.dataBlocks ∨ b ∈ fs.treeBlocks) :
    b < fs.logStart := by
  obtain ⟨lost,balanced⟩ := owned.balanced
  have inside : b ∈ lost + fs.dataBlocks + fs.treeBlocks := by
    rcases used with data | node
    · simp [data]
    · simp [node]
  exact lt_of_lt_of_le (balanced.mem.mp (Or.inr inside)).2 owned.area

theorem Owned.apart (owned : Owned fs) (node : b ∈ fs.treeBlocks) : b ∉ fs.dataBlocks := by
  obtain ⟨lost,balanced⟩ := owned.balanced
  have once := (Multiset.nodup_add.mp balanced.nodup).2.1
  intro data
  exact Lib.Spans.apart rfl once (Multiset.mem_add.mpr (Or.inr data)) node

theorem Owned.free_apart (owned : Owned fs) (free : b ∈ fs.sb.free) :
    b < fs.logStart ∧ b ∉ fs.dataBlocks := by
  obtain ⟨lost,balanced⟩ := owned.balanced
  refine ⟨lt_of_lt_of_le (balanced.mem.mp (Or.inl free)).2 owned.area,fun data => ?_⟩
  exact balanced.held_not_free (Multiset.mem_add.mpr (Or.inl (Multiset.mem_add.mpr (Or.inr data)))) free

theorem Owned.dataBlocks_nodup (owned : Owned fs) : fs.dataBlocks.Nodup := by
  obtain ⟨lost,balanced⟩ := owned.balanced
  exact (Multiset.nodup_add.mp (Multiset.nodup_add.mp (Multiset.nodup_add.mp balanced.nodup).2.1).1).2.1

theorem Owned.injective (owned : Owned fs) {a : Nat} (boundA : a < fs.logStart + fs.logs * gLogSize)
    (boundB : b < fs.logStart + fs.logs * gLogSize) (same : fs.home a = fs.home b) : a = b := by
  obtain ⟨n,σ,mapped⟩ := owned.mapped
  exact mapped.injective (lt_of_lt_of_le boundA mapped.logs) (lt_of_lt_of_le boundB mapped.logs) same

theorem KernFs.InLogs.transfer {m : Nat} (log : fs.InLogs m)
    (same : fs'.logStart = fs.logStart ∧ fs'.logs = fs.logs) : fs'.InLogs m := by
  unfold KernFs.InLogs
  rw [same.1,same.2]
  exact log

theorem KernFs.OwnLog.inLogs {libfsId blk : Nat} (own : fs.OwnLog libfsId blk) : fs.InLogs blk := by
  have ends := own.ends
  obtain ⟨_,low,high⟩ := own
  exact ⟨by omega,by omega⟩

section Homes
variable {fs : KernFs} {k l : Nat}

section
variable (owned : Owned fs)
include owned

theorem Owned.bounds (data : k ∈ fs.dataBlocks) (log : fs.InLogs l) :
    ∃ n σ, Mapped fs n σ ∧ k < n ∧ l < n ∧ k ≠ l := by
  obtain ⟨n,σ,mapped⟩ := owned.mapped
  have low := owned.below (Or.inl data)
  have top := mapped.logs
  unfold KernFs.InLogs at log
  exact ⟨n,σ,mapped,by omega,by omega,by omega⟩

theorem Owned.swap (data : k ∈ fs.dataBlocks) (log : fs.InLogs l) :
    Owned {fs with map := updateMapTable table fs.map k l} ∧
      ∀ b < fs.logStart + fs.logs * gLogSize,
        ({fs with map := updateMapTable table fs.map k l} : KernFs).home b = fs.home (Equiv.swap k l b) := by
  obtain ⟨n,σ,mapped,boundK,boundL,different⟩ := owned.bounds data log
  have swapped := mapped.apply (.update k l) ⟨boundK,boundL,different⟩
  refine ⟨⟨owned.balanced,owned.area,⟨n,_,swapped⟩⟩,fun b inside => ?_⟩
  have bound : b < n := lt_of_lt_of_le inside mapped.logs
  have moved := swapped.home bound
  rw [MapOp.remap,Equiv.Perm.mul_apply,←mapped.home (swap_lt boundK boundL bound)] at moved
  exact moved

theorem Owned.swap_other (data : k ∈ fs.dataBlocks) (log : fs.InLogs l)
    (low : b < fs.logStart) (other : b ≠ k) :
    ({fs with map := updateMapTable table fs.map k l} : KernFs).home b = fs.home b := by
  have notL : b ≠ l := by
    unfold KernFs.InLogs at log
    omega
  rw [(owned.swap data log).2 b (by omega),Equiv.swap_apply_of_ne_of_ne other notL]

theorem Owned.lookup (inside : b < fs.logStart + fs.logs * gLogSize) (disk : Disk) :
    Owned {fs with map := (lblk2pblk table fs.map b).2,disk := disk} ∧
      ∀ c < fs.logStart + fs.logs * gLogSize,
        ({fs with map := (lblk2pblk table fs.map b).2,disk := disk} : KernFs).home c = fs.home c := by
  obtain ⟨n,σ,mapped⟩ := owned.mapped
  have bound : b < n := lt_of_lt_of_le inside mapped.logs
  have looked := mapped.apply (.lookup b) bound
  exact ⟨⟨owned.balanced,owned.area,⟨n,σ,looked.refines,mapped.logs,mapped.small⟩⟩,
    fun c top => home_lookup mapped bound (lt_of_lt_of_le top mapped.logs)⟩

theorem Owned.copy (disk : Disk) (data : k ∈ fs.dataBlocks) (log : fs.InLogs l) :
    Owned {fs with map := (lblk2pblk table (lblk2pblk table fs.map k).2 l).2,disk := disk} ∧
      ∀ b < fs.logStart + fs.logs * gLogSize,
        ({fs with map := (lblk2pblk table (lblk2pblk table fs.map k).2 l).2,disk := disk} : KernFs).home b = fs.home b := by
  have low := owned.below (Or.inl data)
  obtain ⟨owned₁,kept₁⟩ := owned.lookup (b:=k) (by omega) fs.disk
  obtain ⟨owned₂,kept₂⟩ := owned₁.lookup log.2 disk
  exact ⟨owned₂,fun b inside => (kept₂ b inside).trans (kept₁ b inside)⟩

theorem Owned.write {libfsId blk : Nat} (own : fs.OwnLog libfsId blk) (offset size : Nat)
    (bytes : Nat → UInt8) :
    Owned (logWrite fs blk offset size bytes) ∧
      ∀ b < fs.logStart + fs.logs * gLogSize, (logWrite fs blk offset size bytes).home b = fs.home b :=
  owned.lookup own.inLogs.2 _

theorem Owned.flush (rest : Disk) (referenced : List Nat) :
    Owned (syncAllBuffers fs rest referenced) := by
  obtain ⟨lost,balanced⟩ := owned.balanced
  exact { owned with balanced := ⟨lost,{ balanced with }⟩,mapped := Mapped.transfer owned.mapped rfl rfl rfl }

end

end Homes

theorem set_blocks (found : fs.inodes[inum]? = some inode) :
    ∃ data held : Multiset Nat, fs.dataBlocks = data + extentBlocks (extents inode.root.node) ∧
      fs.treeBlocks = held + nodes inode.root.node ∧
      ∀ (inode' : Inode) (sb : SuperBlock),
        ({fs with sb := sb,inodes := fs.inodes.set inum inode'} : KernFs).dataBlocks =
          data + extentBlocks (extents inode'.root.node) ∧
        ({fs with sb := sb,inodes := fs.inodes.set inum inode'} : KernFs).treeBlocks =
          held + nodes inode'.root.node := by
  obtain ⟨data,before,after⟩ := sum_map_set (fun inode : Inode => extentBlocks (extents inode.root.node)) found
  obtain ⟨held,before',after'⟩ := sum_map_set (fun inode : Inode => nodes inode.root.node) found
  exact ⟨data,held,before,before',fun inode' sb => ⟨after inode',after' inode'⟩⟩

structure Created (fs : KernFs) (map : MapResult) (sb₁ : SuperBlock) (fs' : KernFs) : Prop where
  alloc : mlfsExtAllocBlocks fs.sb .data map.ret = some (map.mPblk,sb₁)
  data : fs'.dataBlocks = fs.dataBlocks + span map.mPblk map.ret
  moves : ∀ data, Moves .grow ⟨sb₁,data,fs.treeBlocks⟩ ⟨fs'.sb,data,fs'.treeBlocks⟩

theorem create_cases
    (done : fs.getBlocks inum mLblk mLen = some (map,fs')) :
    fs' = fs ∨ ∃ sb₁, Created fs map sb₁ fs' := by
  obtain ⟨inode,root,sb,found,got,rfl⟩ := getBlocks_parts done
  obtain ⟨data,held,dataSum,treeSum,after⟩ := set_blocks found
  obtain ⟨data',tree'⟩ := after {inode with root := root} sb
  rcases Extents.getBlocks_parts got with ⟨rfl,rfl⟩ | ⟨sb₁,_,alloc,moves,sum⟩
  · have same : fs.inodes.set inum inode = fs.inodes := by
      obtain ⟨inside,rfl⟩ := List.getElem?_eq_some_iff.mp found
      exact List.set_getElem_self inside
    refine Or.inl ?_
    rw [same]
  · refine Or.inr ⟨sb₁,alloc,?_,fun data => ?_⟩
    · rw [data',dataSum,sum,add_assoc]
    · rw [tree',treeSum]
      exact moves data held

theorem created_balanced {sb₁ : SuperBlock} {lost : Multiset Nat}
    (balanced : Balanced fs.sb (lost + fs.dataBlocks + fs.treeBlocks)) (created : Created fs map sb₁ fs') :
    Taken fs.sb sb₁ map.mPblk map.ret ∧
      Account.Balanced ⟨sb₁,lost + fs'.dataBlocks,fs.treeBlocks⟩ := by
  have taken := balanced.take_alloc (fun tree => by cases tree) created.alloc
  have after := balanced.take taken
  refine ⟨taken,?_⟩
  unfold Account.Balanced
  rw [created.data,←add_assoc]
  rwa [add_right_comm] at after

theorem Owned.create (owned : Owned fs)
    (done : fs.getBlocks inum mLblk mLen = some (map,fs')) : Owned fs' := by
  rcases create_cases done with rfl | ⟨sb₁,created⟩
  · exact owned
  · obtain ⟨lost,balanced⟩ := owned.balanced
    obtain ⟨taken,after⟩ := created_balanced balanced created
    have moves := created.moves (lost + fs'.dataBlocks)
    have device := taken.device.trans (moves.sameDevice after)
    obtain ⟨inode,root,sb,found,got,rfl⟩ := getBlocks_parts done
    refine ⟨⟨lost,moves.balanced after⟩,?_,Mapped.transfer owned.mapped rfl rfl rfl⟩
    have blocks : sb.numBlocks = fs.sb.numBlocks := device.2.1
    simp only [blocks]
    exact owned.area

theorem Owned.create_keeps {P : Nat → Prop}
    (owned : Owned fs) (done : fs.getBlocks inum mLblk mLen = some (map,fs')) (tree : ∀ b ∈ fs.treeBlocks, P b)
    (free : ∀ b ∈ fs.sb.free, P b) :
    (∀ b ∈ fs'.treeBlocks, P b) ∧ (∀ b ∈ fs'.sb.free, P b) ∧ (fs' = fs ∨ ∀ b ∈ span map.mPblk map.ret, b ∈ fs.sb.free) := by
  rcases create_cases done with rfl | ⟨sb₁,created⟩
  · exact ⟨tree,free,Or.inl rfl⟩
  · obtain ⟨lost,balanced⟩ := owned.balanced
    obtain ⟨taken,after⟩ := created_balanced balanced created
    have fewer : ∀ b ∈ sb₁.free, P b := by
      intro b member
      refine free b ?_
      rw [taken.free]
      exact Multiset.mem_add.mpr (Or.inl member)
    obtain ⟨_,nodes,free',_⟩ := (created.moves (lost + fs'.dataBlocks)).grow_keeps after tree fewer
    refine ⟨nodes,free',Or.inr fun b member => ?_⟩
    rw [taken.free]
    exact Multiset.mem_add.mpr (Or.inr member)

theorem truncate_moves {start stop : Nat} {lost : Multiset Nat}
    (balanced : Balanced fs.sb (lost + fs.dataBlocks + fs.treeBlocks)) (done : fs.truncate inum start stop = some fs') :
    ∃ middle, Account.Balanced ⟨fs.sb,lost + fs.dataBlocks,fs.treeBlocks⟩ ∧
      Moves .grow ⟨fs.sb,lost + fs.dataBlocks,fs.treeBlocks⟩ middle ∧
      Moves .shrink middle ⟨fs'.sb,lost + fs'.dataBlocks,fs'.treeBlocks⟩ := by
  obtain ⟨inode,root,sb,found,got,rfl⟩ := truncate_parts done
  obtain ⟨data,held,dataSum,treeSum,after⟩ := set_blocks found
  obtain ⟨data',tree'⟩ := after {inode with root := root} sb
  obtain ⟨middle,cut,returned⟩ : ∃ middle, Moves .grow
      ⟨fs.sb,lost + data + extentBlocks (extents inode.root.node),held + nodes inode.root.node⟩ middle ∧
      Moves .shrink middle ⟨sb,lost + data + extentBlocks (extents root.node),held + nodes root.node⟩ :=
    extTruncate_moves got
  refine ⟨middle,balanced,?_,?_⟩
  · rw [dataSum,treeSum,←add_assoc]
    exact cut
  · rw [data',tree',←add_assoc]
    exact returned

theorem Owned.truncate {start stop : Nat} (owned : Owned fs)
    (done : fs.truncate inum start stop = some fs') : Owned fs' := by
  obtain ⟨lost,balanced⟩ := owned.balanced
  obtain ⟨middle,start,cut,returned⟩ := truncate_moves balanced done
  have balanced₁ := cut.balanced start
  have device := (cut.sameDevice start).trans (returned.sameDevice balanced₁)
  have balanced₂ := returned.balanced balanced₁
  obtain ⟨inode,root,sb,found,got,rfl⟩ := truncate_parts done
  refine ⟨⟨lost,balanced₂⟩,?_,Mapped.transfer owned.mapped rfl rfl rfl⟩
  have blocks : sb.numBlocks = fs.sb.numBlocks := device.2.1
  simp only [blocks]
  exact owned.area

theorem setInode_account (found : fs.inodes[inum]? = some inode)
    (root : inode'.root = inode.root ∨ inode'.root = emptyRoot) (lost : Multiset Nat) :
    ∃ lost', lost + fs.dataBlocks + fs.treeBlocks =
      lost' + ({fs with inodes := fs.inodes.set inum inode'} : KernFs).dataBlocks +
        ({fs with inodes := fs.inodes.set inum inode'} : KernFs).treeBlocks := by
  obtain ⟨data,held,dataSum,treeSum,after⟩ := set_blocks found
  obtain ⟨data',tree'⟩ := after inode' fs.sb
  rw [dataSum,treeSum]
  rcases root with same | empty
  · exact ⟨lost,by rw [data',tree',same]⟩
  · refine ⟨lost + extentBlocks (extents inode.root.node) + nodes inode.root.node,?_⟩
    rw [data',tree',empty]
    simp only [emptyRoot,extents_leaf,nodes_leaf,extentBlocks_nil]
    abel

theorem Owned.setInode (owned : Owned fs)
    (found : fs.inodes[inum]? = some inode) (root : inode'.root = inode.root ∨ inode'.root = emptyRoot) :
    Owned {fs with inodes := fs.inodes.set inum inode'} := by
  obtain ⟨lost,balanced⟩ := owned.balanced
  obtain ⟨lost',sum⟩ := setInode_account found root lost
  exact ⟨⟨lost',sum ▸ balanced⟩,owned.area,Mapped.transfer owned.mapped rfl rfl rfl⟩

theorem setInode_blocks (found : fs.inodes[inum]? = some inode)
    (root : inode'.root = inode.root ∨ inode'.root = emptyRoot) :
    (∀ b ∈ ({fs with inodes := fs.inodes.set inum inode'} : KernFs).dataBlocks, b ∈ fs.dataBlocks) ∧
      ∀ b ∈ ({fs with inodes := fs.inodes.set inum inode'} : KernFs).treeBlocks, b ∈ fs.treeBlocks := by
  obtain ⟨data,held,dataSum,treeSum,after⟩ := set_blocks found
  obtain ⟨data',tree'⟩ := after inode' fs.sb
  rw [data',tree',dataSum,treeSum]
  rcases root with same | empty
  · rw [same]
    exact ⟨fun _ => id,fun _ => id⟩
  · rw [empty]
    exact ⟨by simp +contextual [emptyRoot],by simp +contextual [emptyRoot]⟩

section Effects
variable {P : CallCondition}

theorem Effect.owned (effect : Effect P fs fs') (owned : Owned fs) : Owned fs' := by
  cases effect with
  | create met done => exact owned.create done
  | swap data log => exact (owned.swap data log).1
  | copy disk data log => exact (owned.copy disk data log).1
  | inode found itype size => exact owned.setInode found (Or.inl rfl)
  | clear found itype size => exact owned.setInode found (Or.inr rfl)

theorem effects_owned (effects : Effects P fs fs') (owned : Owned fs) : Owned fs' := by
  induction effects with
  | refl => exact owned
  | tail _ effect ih => exact effect.owned ih

theorem Digested.owned (digested : Digested P fs fs') (owned : Owned fs) : Owned fs' := by
  obtain ⟨grown,cut,effects,truncated,rest⟩ := digested.parts
  have owned₁ := effects_owned effects owned
  rcases truncated with rfl | ⟨inum,start,stop,done⟩
  · exact effects_owned rest owned₁
  · exact effects_owned rest (owned₁.truncate done)

end Effects

theorem step_owned {action : Action} (owned : Owned fs) (done : step fs action = some fs') :
    Owned fs' := by
  cases action with
  | write libfsId blk offset size bytes =>
    obtain ⟨own,rfl⟩ := step_write.mp done
    exact (owned.write own offset size bytes).1
  | digest libfsId entry =>
    obtain ⟨from_,digested⟩ := step_digest.mp done
    exact (digestEntry_digested from_ (callsMeet_true fs libfsId entry) digested).owned owned
  | flush rest referenced =>
    cases done
    exact owned.flush rest referenced

end Assise.Digest
