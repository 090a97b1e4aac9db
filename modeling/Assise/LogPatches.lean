import Assise.LogRingSafety

-- The log patches of the file cache. `check_log_invalidation` takes away the patches whose log blocks the tail may
-- have reached again, by the lap a patch was written in and its address; the history of the log says what it should
-- judge.
namespace Assise.LogPatches
open Lib.Runs Lib.Segments LogRing List Option Function

-- `serial` is no field of the source: the place in the history of the transaction that wrote the patch.
structure FcacheLog where
  addr : Nat
  offset : Nat
  size : Nat
  version : Nat
  serial : Nat
deriving DecidableEq, Repr

-- The list has the newest patch first. Without SSD and HDD no block caches data.
structure FcacheBlock where
  logVersion : Nat
  logHead : List FcacheLog
deriving DecidableEq, Repr

def gBlockSizeBytes : Nat := 4096

def versionDiff (availVersion version : Nat) : Int := ((availVersion : Int) - version).bmod (2 ^ 32)

def fcacheLogAdd (patch : FcacheLog) (block : FcacheBlock) : FcacheBlock := { block with logHead := patch :: block.logHead }

def fcacheLogReplace (patch : FcacheLog) (block : FcacheBlock) : FcacheBlock :=
  { block with logHead := patch :: block.logHead.eraseP fun entry => decide (entry.offset = patch.offset ∧ entry.size ≤ patch.size) }

def fcacheLogDelAll : FcacheBlock := ⟨0,[]⟩

def outdated (ring : State) (patch : FcacheLog) : Bool :=
  decide (1 < versionDiff ring.availVersion patch.version) ||
    decide (versionDiff ring.availVersion patch.version = 1 ∧ patch.addr < ring.nextAvailHeader)

-- A block from a later lap or without patches stops LibFS.
def checkLogInvalidation (ring : State) (block : FcacheBlock) : Option FcacheBlock :=
  if versionDiff ring.availVersion block.logVersion < 0 ∨ block.logHead = [] then none
  else if 1 < versionDiff ring.availVersion block.logVersion then some fcacheLogDelAll
  else
    let left := block.logHead.filter fun patch => !outdated ring patch
    some ⟨if left = [] then 0 else block.logVersion,left⟩

-- What one block of a write is for the file block it changes: a part of a file's block, a part of a directory's block, or the
-- whole block.
inductive Write where
  | small (offset size : Nat)
  | dirent (offset size : Nat)
  | whole
deriving DecidableEq, Repr

def checkedBlock (ring : State) : Option FcacheBlock → Option FcacheBlock
  | none => some fcacheLogDelAll
  | some block => checkLogInvalidation ring block

def persistLogFile (ring : State) (serial logblkNo : Nat) (cached : Option FcacheBlock) : Write → Option FcacheBlock
  | .small offset size => (checkedBlock ring cached).map fun block =>
    fcacheLogAdd ⟨logblkNo,offset,size,ring.availVersion,serial⟩ { block with logVersion := ring.availVersion }
  | .dirent offset size => (checkedBlock ring cached).map fun block =>
    fcacheLogReplace ⟨logblkNo,offset,size,ring.availVersion,serial⟩ { block with logVersion := ring.availVersion }
  | .whole => some (fcacheLogAdd ⟨logblkNo,0,gBlockSizeBytes,ring.availVersion,serial⟩
      { fcacheLogDelAll with logVersion := ring.availVersion })

structure Record where
  tx : Tx
  version : Nat
deriving DecidableEq, Repr

-- `history` lists all committed transactions, oldest first; the first `digested` of them are those that handled
-- responses covered.
structure Libfs (κ : Type) where
  ring : State
  history : List Record
  digested : Nat
  fcache : κ → Option FcacheBlock

def initLibfs (κ : Type) (logSbBlk : Nat) (log : LogArea) : Libfs κ := ⟨initLog logSbBlk log,[],0,fun _ => none⟩

-- `persist` is one block of `persist_log_file`, at its place behind the header of the transaction; `read` is the check
-- every reader starts with, `forget` the removal of a block by truncation or deletion.
inductive Action (κ : Type) where
  | log (action : LogRing.Action)
  | persist (key : κ) (write : Write) (pos : Nat)
  | read (key : κ)
  | forget (key : κ)

def committed (ring : State) : LogRing.Action → List Record
  | .commit _ =>
    match ring.phase with
    | .allocated hdr nrBlocks => [⟨⟨hdr,nrBlocks⟩,ring.availVersion⟩]
    | _ => []
  | _ => []

def answered (ring : State) : LogRing.Action → Nat
  | .respond =>
    match ring.digest with
    | .done answer => answer.nDigested
    | _ => 0
  | _ => 0

variable {κ : Type}

def Libfs.setBlock [DecidableEq κ] (s : Libfs κ) (key : κ) (cached : Option FcacheBlock) : Libfs κ :=
  { s with fcache := update s.fcache key cached }

def step [DecidableEq κ] (threshold : Nat) (s : Libfs κ) : Action κ → Option (Libfs κ)
  | .log action => (LogRing.step threshold s.ring action).map fun ring =>
    ⟨ring,s.history ++ committed s.ring action,s.digested + answered s.ring action,s.fcache⟩
  | .persist key write pos =>
    match s.ring.phase with
    | .allocated hdr nrBlocks =>
      if 0 < pos ∧ pos < nrBlocks then
        (persistLogFile s.ring s.history.length (hdr + pos) (s.fcache key) write).map fun block => s.setBlock key (some block)
      else none
    | _ => none
  | .read key =>
    match s.ring.phase with
    | .idle =>
      match s.fcache key with
      | none => some s
      | some block => (checkLogInvalidation s.ring block).map fun left =>
        s.setBlock key (if left.logHead = [] then none else some left)
    | _ => none
  | .forget key => some (s.setBlock key none)

def LogOk (threshold : Nat) (s : Libfs κ) : Action κ → Prop
  | .log action => RingOk threshold s.ring action
  | .persist _ _ _ | .read _ | .forget _ => True

instance (threshold : Nat) (s : Libfs κ) : ∀ action, Decidable (LogOk threshold s action)
  | .log action => inferInstanceAs (Decidable (RingOk threshold s.ring action))
  | .persist _ _ _ | .read _ | .forget _ => .isTrue trivial

def Libfs.records (s : Libfs κ) : List Record := s.history ++ s.ring.phase.held.map fun tx => ⟨tx,s.ring.availVersion⟩

-- A check keeps no patch whose log block a newer transaction has taken, and drops only patches of digested
-- transactions.
structure CheckSound (s : Libfs κ) (block left : FcacheBlock) : Prop where
  kept : ∀ patch ∈ left.logHead, ∀ later record, patch.serial < later → s.records[later]? = some record →
    ¬ record.tx.Holds patch.addr
  dropped : ∀ patch ∈ block.logHead, patch ∉ left.logHead → patch.serial < s.digested

theorem versionDiff_eq {availVersion version : Nat} (old : version ≤ availVersion) (range : availVersion < 2 ^ 32)
    (nonneg : 0 ≤ versionDiff availVersion version) : versionDiff availVersion version = availVersion - version := by
  unfold versionDiff at *
  rw [Int.bmod_def] at *
  split at nonneg <;> rename_i low
  · rw [if_pos low]
    omega
  · rw [if_neg low]
    omega

theorem versionDiff_near {availVersion version : Nat} (old : version ≤ availVersion) (near : availVersion ≤ version + 2) :
    versionDiff availVersion version = availVersion - version := by
  unfold versionDiff
  rw [Int.bmod_def,if_pos (by omega)]
  omega

def Record.Before (a b : Record) : Prop := a.version < b.version ∨ a.version = b.version ∧ a.tx.stop ≤ b.tx.first

def Record.Behind (ring : State) (r : Record) : Prop :=
  r.version < ring.availVersion ∨ r.version = ring.availVersion ∧ r.tx.stop ≤ ring.nextAvailHeader

-- The records of the undigested transactions. Those of an earlier lap are of the last one and lie above the head.
structure Awaits (ring : State) (waiting : List Record) : Prop where
  undigested : waiting.map Record.tx = ring.undigested
  older : ∀ r ∈ waiting, r.version < ring.availVersion →
    r.version + 1 = ring.availVersion ∧ ring.startVersion < ring.availVersion ∧ ring.startBlk ≤ r.tx.first

structure PatchOk (s : Libfs κ) (block : FcacheBlock) (patch : FcacheLog) : Prop where
  recorded : ∃ r, s.records[patch.serial]? = some r ∧ r.version = patch.version ∧ r.tx.Holds patch.addr
  old : patch.version ≤ block.logVersion
  near : block.logVersion ≤ patch.version + 1

structure BlockOk (s : Libfs κ) (block : FcacheBlock) : Prop where
  patches : ∀ patch ∈ block.logHead, PatchOk s block patch
  version : block.logVersion ≤ s.ring.availVersion

structure Inv (s : Libfs κ) : Prop where
  ring : LogRing.Inv s.ring
  ordered : s.records.Pairwise Record.Before
  behind : ∀ r ∈ s.records, r.Behind s.ring
  awaits : Awaits s.ring (s.history.drop s.digested)
  covered : s.digested ≤ s.history.length
  blocks : ∀ key block, s.fcache key = some block → BlockOk s block

section Ring
variable {s : State} {waiting : List Record} {nrBlocks : Nat}

section
variable (awaits : Awaits s waiting)
include awaits

theorem Awaits.mem {r : Record} (member : r ∈ waiting) : r.tx ∈ s.undigested := by
  rw [← awaits.undigested]
  exact mem_map_of_mem member

theorem Awaits.congr {t : State} (undigested : t.undigested = s.undigested)
    (avail : t.availVersion = s.availVersion) (start : t.startVersion = s.startVersion) (head : t.startBlk = s.startBlk) :
    Awaits t waiting := by
  refine ⟨awaits.undigested.trans undigested.symm,?_⟩
  rw [avail,start,head]
  exact awaits.older

theorem Awaits.moveHead (inv : LogRing.Inv s) :
    Awaits (moveHead s) waiting := by
  unfold LogRing.moveHead
  split
  · rename_i passed
    refine ⟨awaits.undigested,fun r member old => ?_⟩
    obtain ⟨_,versions,above⟩ := awaits.older r member old
    exact absurd (passed_young inv.lap versions passed.2 r.tx (awaits.mem member)) (Nat.not_lt.mpr above)
  · exact awaits

theorem Awaits.request (inv : LogRing.Inv s) :
    Awaits (makeDigestRequestAsync s) waiting := by
  unfold makeDigestRequestAsync
  split
  · exact (awaits.moveHead inv).congr rfl rfl rfl rfl
  · exact awaits

theorem Awaits.reserve (inv : LogRing.Inv s)
    (ok : ReserveOk s nrBlocks) (behind : ∀ r ∈ waiting, r.version ≤ s.availVersion) :
    Awaits (reserveBlocks nrBlocks s) waiting := by
  have ok := ok.2
  unfold reserveBlocks wrapTail
  split at ok
  · rename_i wraps
    rw [if_pos wraps]
    obtain ⟨same,version,_⟩ := ok
    refine ⟨awaits.undigested,fun r member _ => ?_⟩
    have current : r.version = s.availVersion := by
      by_contra other
      have older := awaits.older r member (Nat.lt_of_le_of_ne (behind r member) other)
      omega
    simp only
    rw [Nat.mod_eq_of_lt version]
    refine ⟨by omega,by omega,?_⟩
    rcases inv.lap with plain | ⟨_,_,_,wrapped⟩ | stuck
    · exact (chain_bounds plain.chain r.tx (mem_append_left _ (awaits.mem member))).1
    · have versions := wrapped.versions
      omega
    · have versions := stuck.versions
      omega
  · rename_i fits
    rw [if_neg fits]
    exact awaits.congr rfl rfl rfl rfl

theorem Awaits.respond {next : State} {answer : DigestAnswer}
    (inv : LogRing.Inv s) (done : s.digest = .done answer) (handled : handleDigestResponse answer s = some next) :
    answer.nDigested ≤ waiting.length ∧ Awaits next (waiting.drop answer.nDigested) := by
  have pending := inv.pending
  rw [Pending,done] at pending
  obtain ⟨covered,rest,split,digested,_,visited,coverage⟩ := pending
  have busy : s.digest ≠ .idle := by rw [done]; intro other; cases other
  have frame := handleDigestResponse_frame handled
  have all := awaits.undigested.trans split
  have left : (waiting.drop answer.nDigested).map Record.tx = rest := by
    rw [map_drop,all,digested,drop_left]
  refine ⟨?_,?_,fun r member old => ?_⟩
  · have total := congrArg List.length all
    rw [length_map,length_append] at total
    omega
  · rw [left,frame.left,visited,undigested_kept inv.lap split]
  · rw [frame.lap] at old ⊢
    obtain ⟨lap,versions,above⟩ := awaits.older r (mem_of_mem_drop member) old
    obtain ⟨plain,high⟩ := left_above coverage inv.lap busy split versions (left ▸ mem_map_of_mem member) above
    rw [frame.version,plain,frame.head]
    exact ⟨lap,versions,high⟩

theorem Awaits.commit {hdr : Nat} (contents : LogArea) :
    Awaits (commitLog contents hdr nrBlocks s) (waiting ++ [⟨⟨hdr,nrBlocks⟩,s.availVersion⟩]) := by
  refine ⟨by rw [map_append,awaits.undigested]; rfl,fun r member old => ?_⟩
  rcases mem_append.mp member with member | member
  · exact awaits.older r member old
  · rw [mem_singleton] at member
    subst member
    exact absurd old (Nat.lt_irrefl _)

end

theorem Record.Behind.wrapTail {r : Record} (behind : r.Behind s) (ok : ReserveOk s nrBlocks) :
    r.Behind (wrapTail nrBlocks s) := by
  have ok := ok.2
  unfold LogRing.wrapTail
  split at ok
  · rename_i wraps
    rw [if_pos wraps]
    refine .inl ?_
    simp only
    rw [Nat.mod_eq_of_lt ok.2.1]
    rcases behind with old | ⟨same,_⟩ <;> omega
  · rename_i fits
    rw [if_neg fits]
    exact behind

end Ring

variable {s : Libfs κ} {ring : State} {block left : FcacheBlock} {patch : FcacheLog} {cached : Option FcacheBlock} {nrBlocks : Nat}

theorem BlockOk.grow {t : Libfs κ} (ok : BlockOk s block) (grown : s.records <+: t.records)
    (later : s.ring.availVersion ≤ t.ring.availVersion) : BlockOk t block := by
  refine ⟨fun patch member => ?_,Nat.le_trans ok.version later⟩
  obtain ⟨⟨r,found,same⟩,old,near⟩ := ok.patches patch member
  obtain ⟨more,whole⟩ := grown
  refine ⟨⟨r,?_,same⟩,old,near⟩
  rw [← whole,getElem?_append_left (List.getElem?_eq_some_iff.mp found).1]
  exact found

theorem Inv.keep {history : List Record} {digested : Nat} (inv : Inv s) (kept : LogRing.Inv ring)
    (lap : ring.availVersion = s.ring.availVersion) (tail : ring.nextAvailHeader = s.ring.nextAvailHeader)
    (same : (⟨ring,history,digested,s.fcache⟩ : Libfs κ).records = s.records) (awaits : Awaits ring (history.drop digested))
    (covered : digested ≤ history.length) : Inv (⟨ring,history,digested,s.fcache⟩ : Libfs κ) := by
  refine ⟨kept,by rw [same]; exact inv.ordered,?_,awaits,covered,fun key block found => ?_⟩
  · rw [same]
    intro r member
    rw [Record.Behind,lap,tail]
    exact inv.behind r member
  · exact (inv.blocks key block found).grow ⟨[],by rw [append_nil,same]⟩ (Nat.le_of_eq lap.symm)

theorem records_held {digested : Nat} (lap : ring.availVersion = s.ring.availVersion)
    (held : ring.phase.held = s.ring.phase.held) :
    (⟨ring,s.history,digested,s.fcache⟩ : Libfs κ).records = s.records := by
  simp only [Libfs.records,lap,held]

theorem reserve_inv (inv : Inv s) (phase : s.ring.phase = .entered nrBlocks)
    (ok : ReserveOk s.ring nrBlocks) : Inv { s with ring := reserveBlocks nrBlocks s.ring } := by
  have before : s.records = s.history := by rw [Libfs.records,phase]; exact append_nil _
  have after : ({ s with ring := reserveBlocks nrBlocks s.ring } : Libfs κ).records =
      s.history ++ [⟨⟨(wrapTail nrBlocks s.ring).nextAvailHeader,nrBlocks⟩,(wrapTail nrBlocks s.ring).availVersion⟩] := rfl
  have behind : ∀ r ∈ s.history, r.Behind (wrapTail nrBlocks s.ring) := fun r member =>
    (inv.behind r (before ▸ member)).wrapTail ok
  have later : s.ring.availVersion ≤ (wrapTail nrBlocks s.ring).availVersion := by
    have ok := ok.2
    unfold wrapTail
    split at ok
    · rename_i wraps
      rw [if_pos wraps]
      simp only
      rw [Nat.mod_eq_of_lt ok.2.1]
      exact Nat.le_succ _
    · rename_i fits
      exact Nat.le_of_eq (by rw [if_neg fits])
  refine ⟨reserveBlocks_inv inv.ring phase ok,?_,?_,?_,inv.covered,fun key block found => ?_⟩
  · rw [after]
    refine pairwise_append.mpr ⟨before ▸ inv.ordered,pairwise_singleton _ _,fun r member last held => ?_⟩
    rw [mem_singleton] at held
    subst held
    exact behind r member
  · rw [after]
    intro r member
    rcases mem_append.mp member with member | member
    · rcases behind r member with old | ⟨same,below⟩
      · exact .inl old
      · exact .inr ⟨same,Nat.le_add_right_of_le below⟩
    · rw [mem_singleton] at member
      subst member
      exact .inr ⟨rfl,Nat.le_refl _⟩
  · refine inv.awaits.reserve inv.ring ok fun r member => ?_
    rcases inv.behind r (before ▸ mem_of_mem_drop member) with old | ⟨same,_⟩
    · exact Nat.le_of_lt old
    · exact Nat.le_of_eq same
  · exact (inv.blocks key block found).grow (by rw [before,after]; exact prefix_append _ _) later

theorem log_inv {threshold : Nat} {action : LogRing.Action} (inv : Inv s)
    (ok : RingOk threshold s.ring action) (stepped : LogRing.step threshold s.ring action = some ring) :
    Inv (⟨ring,s.history ++ committed s.ring action,s.digested + answered s.ring action,s.fcache⟩ : Libfs κ) := by
  have kept := LogRing.step_inv threshold s.ring action ring inv.ring ok stepped
  have requested := makeDigestRequestAsync_phase s.ring
  have frame : (makeDigestRequestAsync s.ring).availVersion = s.ring.availVersion ∧
      (makeDigestRequestAsync s.ring).nextAvailHeader = s.ring.nextAvailHeader := by
    unfold makeDigestRequestAsync makeDigestRequestSync moveHead
    split_ifs <;> exact ⟨rfl,rfl⟩
  cases step_sound stepped with
  | request =>
    simp only [committed,answered,append_nil,Nat.add_zero]
    exact inv.keep kept frame.1 frame.2 (records_held frame.1 (by rw [requested])) (inv.awaits.request inv.ring) inv.covered
  | enterFull idle _ =>
    simp only [committed,answered,append_nil,Nat.add_zero]
    exact inv.keep kept frame.1 frame.2 (records_held frame.1 (by rw [idle]; rfl))
      ((inv.awaits.request inv.ring).congr rfl rfl rfl rfl) inv.covered
  | checkLow phase _ =>
    simp only [committed,answered,append_nil,Nat.add_zero]
    exact inv.keep kept frame.1 frame.2 (records_held frame.1 (by rw [phase]; rfl))
      ((inv.awaits.request inv.ring).congr rfl rfl rfl rfl) inv.covered
  | enter phase | check phase | waited phase | retry phase | recheck phase _ =>
    simp only [committed,answered,append_nil,Nat.add_zero]
    exact inv.keep kept rfl rfl (records_held rfl (by rw [phase]; rfl)) (inv.awaits.congr rfl rfl rfl rfl) inv.covered
  | kernfs _ _ =>
    simp only [committed,answered,append_nil,Nat.add_zero]
    exact inv.keep kept rfl rfl (records_held rfl rfl) (inv.awaits.congr rfl rfl rfl rfl) inv.covered
  | reserve phase =>
    simp only [committed,answered,append_nil,Nat.add_zero]
    rw [RingOk,phase] at ok
    exact reserve_inv inv phase ok
  | commit phase =>
    simp only [committed,answered,phase,Nat.add_zero]
    refine inv.keep kept rfl rfl ?_ ?_ (by rw [length_append]; exact Nat.le_add_right_of_le inv.covered)
    · rw [Libfs.records,Libfs.records,phase]
      exact append_nil _
    · rw [drop_append_of_le_length inv.covered]
      exact inv.awaits.commit _
  | respond done handled =>
    simp only [committed,answered,done,append_nil]
    have frame := handleDigestResponse_frame handled
    obtain ⟨length,awaits⟩ := inv.awaits.respond inv.ring done handled
    rw [length_drop] at length
    have covered := inv.covered
    refine inv.keep kept frame.lap frame.tail (records_held frame.lap (by rw [frame.phase])) ?_ (by omega)
    rw [← drop_drop]
    exact awaits

structure Checked (s : Libfs κ) (block left : FcacheBlock) : Prop where
  ok : BlockOk s left
  kept : ∀ patch ∈ left.logHead, patch ∈ block.logHead ∧ s.ring.availVersion ≤ patch.version + 1 ∧
    (patch.version + 1 = s.ring.availVersion → s.ring.nextAvailHeader ≤ patch.addr)
  dropped : ∀ patch ∈ block.logHead, patch ∉ left.logHead → patch.version + 1 < s.ring.availVersion ∨
    patch.version + 1 = s.ring.availVersion ∧ patch.addr < s.ring.nextAvailHeader

theorem delAll_ok (s : Libfs κ) : BlockOk s fcacheLogDelAll := ⟨fun _ member => (by cases member),Nat.zero_le _⟩

theorem outdated_iff (old : patch.version ≤ ring.availVersion) (near : ring.availVersion ≤ patch.version + 2) :
    outdated ring patch = true ↔ patch.version + 1 < ring.availVersion ∨
      patch.version + 1 = ring.availVersion ∧ patch.addr < ring.nextAvailHeader := by
  rw [outdated,versionDiff_near old near,Bool.or_eq_true,decide_eq_true_eq,decide_eq_true_eq]
  omega

theorem check_block (ok : BlockOk s block) (range : s.ring.availVersion < 2 ^ 32)
    (checked : checkLogInvalidation s.ring block = some left) : Checked s block left := by
  unfold checkLogInvalidation at checked
  obtain ⟨passed,checked⟩ := ite_none_left_eq_some.mp checked
  have nonneg : 0 ≤ versionDiff s.ring.availVersion block.logVersion := Int.not_lt.mp fun low => passed (.inl low)
  rw [versionDiff_eq ok.version range nonneg] at checked
  split at checked
  · -- the last write to the block lies two laps back
    cases checked
    refine ⟨delAll_ok s,fun _ member => (by cases member),fun patch member _ => .inl ?_⟩
    have old := (ok.patches patch member).old
    omega
  · rename_i recent
    cases checked
    have near : ∀ patch ∈ block.logHead, (outdated s.ring patch = true ↔ patch.version + 1 < s.ring.availVersion ∨
        patch.version + 1 = s.ring.availVersion ∧ patch.addr < s.ring.nextAvailHeader) := by
      intro patch member
      have bounds := ok.patches patch member
      have old := bounds.old
      have last := bounds.near
      have version := ok.version
      exact outdated_iff (by omega) (by omega)
    refine ⟨⟨fun patch member => ?_,?_⟩,fun patch member => ?_,fun patch member gone => ?_⟩
    · obtain ⟨recorded,old,last⟩ := ok.patches patch (mem_filter.mp member).1
      rw [if_neg (ne_nil_of_mem member)]
      exact ⟨recorded,old,last⟩
    · dsimp only
      split
      · exact Nat.zero_le _
      · exact ok.version
    · obtain ⟨inside,valid⟩ := mem_filter.mp member
      have known := (near patch inside).not.mp (by simpa using valid)
      exact ⟨inside,by omega,by omega⟩
    · refine (near patch member).mp ?_
      by_contra valid
      exact gone (mem_filter.mpr ⟨member,by simpa using valid⟩)

theorem checked_sound (inv : Inv s) (settled : s.ring.phase.retrying = false) (ok : BlockOk s block)
    (checked : Checked s block left) : CheckSound s block left := by
  constructor
  · intro patch member later record after found holds
    obtain ⟨⟨r,place,same,first,last⟩,_⟩ := checked.ok.patches patch member
    obtain ⟨_,near,above⟩ := checked.kept patch member
    obtain ⟨inside,rfl⟩ := List.getElem?_eq_some_iff.mp place
    obtain ⟨within,rfl⟩ := List.getElem?_eq_some_iff.mp found
    have order := pairwise_iff_getElem.mp inv.ordered patch.serial later inside within after
    have bound := inv.behind _ (getElem_mem within)
    obtain ⟨low,high⟩ := holds
    simp only [Record.Before,Record.Behind] at order bound
    omega
  · intro patch member gone
    obtain ⟨⟨r,place,same,first,last⟩,_⟩ := ok.patches patch member
    have reason := checked.dropped patch member gone
    by_contra waiting
    have inHistory : s.history[patch.serial]? = some r := by
      rw [Libfs.records,getElem?_append] at place
      split at place
      · exact place
      · -- the transaction being written is of the current lap
        have held := mem_of_getElem? place
        rw [List.mem_map] at held
        obtain ⟨tx,_,rfl⟩ := held
        have current : s.ring.availVersion = patch.version := same
        omega
    have member : r ∈ s.history.drop s.digested := by
      refine mem_of_getElem? (i := patch.serial - s.digested) ?_
      rw [getElem?_drop,Nat.add_sub_cancel' (Nat.le_of_not_lt waiting)]
      exact inHistory
    obtain ⟨lap,wrapped,above⟩ := inv.awaits.older r member (by omega)
    have room : s.ring.nextAvailHeader ≤ s.ring.startBlk := by
      rcases inv.ring.lap with plain | ⟨_,_,_,ahead⟩ | stuck
      · have same := plain.versions
        omega
      · exact ahead.room settled
      · rw [stuck.retrying] at settled
        cases settled
    omega

theorem BlockOk.add {patches : List FcacheLog} (ok : BlockOk s block)
    (near : ∀ other ∈ block.logHead, s.ring.availVersion ≤ other.version + 1) (part : ∀ other ∈ patches, other ∈ block.logHead)
    (version : patch.version = s.ring.availVersion)
    (recorded : ∃ r, s.records[patch.serial]? = some r ∧ r.version = patch.version ∧ r.tx.Holds patch.addr) :
    BlockOk s ⟨s.ring.availVersion,patch :: patches⟩ := by
  refine ⟨fun other member => ?_,Nat.le_refl _⟩
  rcases mem_cons.mp member with rfl | member
  · exact ⟨recorded,Nat.le_of_eq version,version ▸ Nat.le_succ _⟩
  · obtain ⟨found,old,_⟩ := ok.patches other (part other member)
    exact ⟨found,Nat.le_trans old ok.version,near other (part other member)⟩

theorem checkedBlock_ok (range : s.ring.availVersion < 2 ^ 32)
    (ok : ∀ block, cached = some block → BlockOk s block) (checked : checkedBlock s.ring cached = some left) :
    BlockOk s left ∧ ∀ patch ∈ left.logHead, s.ring.availVersion ≤ patch.version + 1 := by
  cases cached with
  | none =>
    cases checked
    exact ⟨delAll_ok s,fun _ member => by cases member⟩
  | some block =>
    have known := check_block (ok block rfl) range checked
    exact ⟨known.ok,fun patch member => (known.kept patch member).2.1⟩

theorem persist_ok {hdr pos : Nat} {write : Write}
    (range : s.ring.availVersion < 2 ^ 32) (ok : ∀ block, cached = some block → BlockOk s block)
    (phase : s.ring.phase = .allocated hdr nrBlocks) (inside : 0 < pos ∧ pos < nrBlocks)
    (persisted : persistLogFile s.ring s.history.length (hdr + pos) cached write = some block) : BlockOk s block := by
  have recorded : ∃ r, s.records[s.history.length]? = some r ∧ r.version = s.ring.availVersion ∧ r.tx.Holds (hdr + pos) := by
    refine ⟨⟨⟨hdr,nrBlocks⟩,s.ring.availVersion⟩,?_,rfl,Nat.le_add_right _ _,Nat.add_lt_add_left inside.2 _⟩
    rw [Libfs.records,getElem?_append_right (Nat.le_refl _),Nat.sub_self,phase]
    rfl
  cases write with
  | small offset size =>
    obtain ⟨left,checked,rfl⟩ := map_eq_some_iff.mp persisted
    obtain ⟨kept,near⟩ := checkedBlock_ok range ok checked
    exact kept.add near (fun _ member => member) rfl recorded
  | dirent offset size =>
    obtain ⟨left,checked,rfl⟩ := map_eq_some_iff.mp persisted
    obtain ⟨kept,near⟩ := checkedBlock_ok range ok checked
    exact kept.add near (fun _ member => mem_of_mem_eraseP member) rfl recorded
  | whole =>
    cases persisted
    exact (delAll_ok s).add (fun _ member => by cases member) (fun _ member => member) rfl recorded

theorem initLibfs_inv (logSbBlk : Nat) (log : LogArea) : Inv (initLibfs κ logSbBlk log) :=
  ⟨initLog_inv logSbBlk log,.nil,fun _ member => (by cases member),⟨rfl,fun _ member => (by cases member)⟩,Nat.le_refl _,
    fun _ _ found => (by cases found)⟩

section Runs
variable [DecidableEq κ]

theorem Inv.setBlock (inv : Inv s) (key : κ) (ok : ∀ block, cached = some block → BlockOk s block) :
    Inv (s.setBlock key cached) := by
  refine ⟨inv.ring,inv.ordered,inv.behind,inv.awaits,inv.covered,fun other block found => ?_⟩
  have known : BlockOk s block := by
    have found : update s.fcache key cached other = some block := found
    by_cases same : other = key
    · subst same
      rw [update_self] at found
      exact ok block found
    · rw [update_of_ne same] at found
      exact inv.blocks other block found
  refine ⟨fun patch member => ?_,known.version⟩
  obtain ⟨recorded,old,near⟩ := known.patches patch member
  exact ⟨recorded,old,near⟩

theorem step_inv (threshold : Nat) (s : Libfs κ) (action : Action κ) (next : Libfs κ) (inv : Inv s) (ok : LogOk threshold s action)
    (stepped : step threshold s action = some next) : Inv next := by
  cases action with
  | log action =>
    obtain ⟨ring,moved,rfl⟩ := map_eq_some_iff.mp stepped
    exact log_inv inv ok moved
  | persist key write pos =>
    simp only [step] at stepped
    split at stepped
    · rename_i phase
      obtain ⟨inside,stepped⟩ := ite_none_right_eq_some.mp stepped
      obtain ⟨block,persisted,rfl⟩ := map_eq_some_iff.mp stepped
      refine inv.setBlock key fun other same => ?_
      cases same
      exact persist_ok inv.ring.version (inv.blocks key) phase inside persisted
    · cases stepped
  | read key =>
    simp only [step] at stepped
    split at stepped
    · split at stepped
      · cases stepped
        exact inv
      · rename_i found
        obtain ⟨left,checked,rfl⟩ := map_eq_some_iff.mp stepped
        refine inv.setBlock key fun other same => ?_
        obtain ⟨_,same⟩ := ite_none_left_eq_some.mp same
        cases same
        exact (check_block (inv.blocks key _ found) inv.ring.version checked).ok
    · cases stepped
  | forget key =>
    cases stepped
    exact inv.setBlock key fun _ same => by cases same

theorem check_log_invalidation_sound (threshold logSbBlk : Nat) (log : LogArea) (actions : List (Action κ)) (s : Libfs κ)
    (ok : Guarded (step threshold) (LogOk threshold) (initLibfs κ logSbBlk log) actions)
    (ran : run (step threshold) (initLibfs κ logSbBlk log) actions = some s) (settled : s.ring.phase.retrying = false)
    (key : κ) (block left : FcacheBlock) (found : s.fcache key = some block)
    (checked : checkLogInvalidation s.ring block = some left) : CheckSound s block left := by
  have inv := invariant_run (step threshold) (LogOk threshold) Inv (step_inv threshold) _ s actions (initLibfs_inv logSbBlk log)
    ok ran
  have known := inv.blocks key block found
  exact checked_sound inv settled known (check_block known inv.ring.version checked)

end Runs

def smallWrite (blocks key : Nat) : List (Action Nat) :=
  [.log (.enter blocks),.log .reserve,.log .check,.log .recheck,.persist key (.small 0 100) 1,.log (.commit blankLog)]

def reusedRun : List (Action Nat) :=
  smallWrite 4096 0 ++ (commits 6 4096 ++ digestAll ++ commitBlocks 4096).map .log

theorem check_log_invalidation_sound_reused : ∃ s block left, run (step 50) (initLibfs Nat 616960 blankLog) reusedRun = some s ∧
    s.fcache 0 = some block ∧ checkLogInvalidation s.ring block = some left ∧ block.logHead ≠ left.logHead ∧
    CheckSound s block left := by
  obtain ⟨s,reached,settled,block,found,left,checked,differ⟩ :
      ∃ s, run (step 50) (initLibfs Nat 616960 blankLog) reusedRun = some s ∧ s.ring.phase.retrying = false ∧
        ∃ block, s.fcache 0 = some block ∧ ∃ left, checkLogInvalidation s.ring block = some left ∧
          block.logHead ≠ left.logHead := by decide +kernel
  exact ⟨s,block,left,reached,found,checked,differ,check_log_invalidation_sound 50 616960 blankLog reusedRun s
    (by decide +kernel) reached settled 0 block left found checked⟩

-- A digest that is answered only while the last write of the second lap waits covers nothing behind it: the tail
-- wraps again before a small write from the end of the first lap is digested.
def doubleWrapRun : List (Action Nat) :=
  firstLap.map .log ++ smallWrite 2 0 ++ (secondLap ++ commitBlocks 4096).map .log

theorem double_wrap_drops_undigested : ∃ s block left patch record,
    run (step 30) (initLibfs Nat 616960 blankLog) doubleWrapRun = some s ∧ s.ring.phase = .idle ∧ s.fcache 0 = some block ∧
    checkLogInvalidation s.ring block = some left ∧ patch ∈ block.logHead ∧ patch ∉ left.logHead ∧
    s.records[patch.serial]? = some record ∧ record.tx ∈ s.ring.undigested ∧ ¬ CheckSound s block left := by
  obtain ⟨s,reached,idle,found,checked,recorded,waits,digested⟩ :
      ∃ s, run (step 30) (initLibfs Nat 616960 blankLog) doubleWrapRun = some s ∧ s.ring.phase = .idle ∧
        s.fcache 0 = some ⟨0,[⟨648099,0,100,0,9⟩]⟩ ∧ checkLogInvalidation s.ring ⟨0,[⟨648099,0,100,0,9⟩]⟩ = some ⟨0,[]⟩ ∧
        s.records[9]? = some ⟨⟨648098,3⟩,0⟩ ∧ ⟨648098,3⟩ ∈ s.ring.undigested ∧ s.digested = 9 := by decide +kernel
  refine ⟨s,_,_,⟨648099,0,100,0,9⟩,_,reached,idle,found,checked,mem_cons_self,not_mem_nil,recorded,waits,fun sound => ?_⟩
  have early := sound.dropped _ mem_cons_self not_mem_nil
  rw [digested] at early
  exact Nat.lt_irrefl _ early

end Assise.LogPatches
