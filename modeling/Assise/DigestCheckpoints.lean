import Assise.LeaseHandover

-- The digest state that KernFS keeps of a process, and when it clears the checkpoint of a surrendered lease.
namespace Assise.LeaseHandover
open LogRing Lib.Runs Lib.Segments Option

variable {proc : Process} {next : LogRing.State} {threshold : Nat} {answer : DigestAnswer}

-- LibFS has moved the head over the wrap point and asked for a digest that ends below the place of the last one.
def Turned (proc : Process) : Prop :=
  ∃ request, proc.log.digest = .sent request ∧ proc.peer.startVersion + 1 = proc.log.startVersion ∧
    ∃ covered rest last, proc.log.undigested = covered ++ rest ∧ request.nHdrs = covered.length ∧
      Follows request.startBlkno request.endBlkno request.startDigest covered last false ∧ last < proc.peer.startDigest

def Agrees (proc : Process) : Prop :=
  proc.peer = ⟨(head proc.log).version,(head proc.log).block⟩ ∨ Turned proc

theorem follows_unique {begin last a b c : Nat} {txs : List Tx} {one two : Bool} (left : Follows begin last a txs b one)
    (right : Follows begin last a txs c two) : b = c ∧ one = two := by
  induction txs generalizing a one two with
  | nil => exact ⟨left.1.symm.trans right.1,left.2.trans right.2.symm⟩
  | cons tx rest ih =>
    obtain ⟨_,_,leftRest,rfl⟩ := left
    obtain ⟨_,_,rightRest,rfl⟩ := right
    obtain ⟨rfl,rfl⟩ := ih leftRest rightRest
    exact ⟨rfl,rfl⟩

theorem Agrees.keep (agrees : Agrees proc) {proc' : Process} (peer : proc'.peer = proc.peer)
    (more : ∃ txs, proc'.log.undigested = proc.log.undigested ++ txs) (digest : proc'.log.digest = proc.log.digest)
    (start : proc'.log.startVersion = proc.log.startVersion) (block : proc'.log.startBlk = proc.log.startBlk) :
    Agrees proc' := by
  rcases agrees with same | ⟨request,sent,behind,covered,rest,last,split,hdrs,follows,below⟩
  · have still : head proc'.log = head proc.log := by simp only [head,digest,start,block]
    exact .inl (by rw [peer,still,same])
  · obtain ⟨txs,grown⟩ := more
    refine .inr ⟨request,digest.trans sent,by rw [peer,start,behind],covered,rest ++ txs,last,?_,hdrs,follows,peer ▸ below⟩
    rw [grown,split,List.append_assoc]

theorem Agrees.request (agrees : Agrees proc) (inv : LogRing.Inv proc.log) (ok : RequestOk proc.log) :
    Agrees { proc with log := makeDigestRequestAsync proc.log } := by
  have ring := makeDigestRequestAsync_inv inv ok
  by_cases sends : proc.log.digest = .idle ∧ 0 < proc.log.nDigest
  · have same : proc.peer = ⟨proc.log.startVersion,proc.log.startBlk⟩ := by
      rcases agrees with same | ⟨_,sent,_⟩
      · simpa only [head,sends.1] using same
      · rw [sends.1] at sent
        cases sent
    have asked : makeDigestRequestAsync proc.log = makeDigestRequestSync 100 proc.log := if_pos sends
    rw [asked] at ring ⊢
    by_cases moves : proc.log.logEnd ≠ 0 ∧ proc.log.logEnd < proc.log.startBlk
    · right
      have moved : moveHead proc.log =
          { proc.log with startBlk := proc.log.begin,startVersion := (proc.log.startVersion + 1) % 2 ^ 32 } := if_pos moves
      have bound := inv.version
      -- only younger transactions are left, none of which ends at the wrap point
      obtain ⟨versions,first,below⟩ : proc.log.availVersion = proc.log.startVersion + 1 ∧ proc.log.begin < proc.log.startBlk ∧
          ∀ tx ∈ proc.log.undigested, tx.stop < proc.log.startBlk := by
        rcases inv.lap with plain | ⟨upper,lower,top,wrapped⟩ | stuck
        · have early := ok plain.versions
          omega
        · have reached := chain_le wrapped.older
          have start := wrapped.start
          refine ⟨wrapped.versions,by omega,fun tx listed => ?_⟩
          have here : proc.log.startBlk = proc.log.logEnd + 1 := by omega
          have none : upper = [] := chain_empty (here ▸ wrapped.older)
          rw [wrapped.split,none,List.nil_append] at listed
          have top := wrapped.below
          have stop := (chain_bounds wrapped.younger tx listed).2.2
          have other := wrapped.fresh tx (List.mem_append_left _ listed)
          omega
        · have none := inv.count
          rw [stuck.empty] at none
          exact absurd sends.2 (by rw [none]; decide)
      have wide : (proc.log.startVersion + 1) % 2 ^ 32 = proc.log.startVersion + 1 := Nat.mod_eq_of_lt (versions ▸ bound)
      have pending := ring.pending
      unfold makeDigestRequestSync at pending ⊢
      rw [moved] at pending ⊢
      obtain ⟨covered,rest,last,rotated,split,hdrs,_,follows,coverage⟩ := pending
      cases coverage with
      | crossing apart _ _ _ | turned apart _ _ =>
        have apart : proc.log.availVersion = (proc.log.startVersion + 1) % 2 ^ 32 + 1 := apart
        omega
      | plain chain =>
        refine ⟨_,rfl,?_,covered,rest,last,split,hdrs,follows,?_⟩
        · rw [same,wide]
        · rw [same]
          rcases List.eq_nil_or_concat covered with rfl | ⟨front,tx,rfl⟩
          · exact chain ▸ first
          · rw [List.concat_eq_append] at chain
            obtain ⟨_,_,_,_,stop⟩ := chain_append.mp chain
            exact stop ▸ below tx (split ▸ by simp)
    · left
      have stays : moveHead proc.log = proc.log := if_neg moves
      simp only [makeDigestRequestSync,stays,head,same]
  · have stays : makeDigestRequestAsync proc.log = proc.log := if_neg sends
    rw [stays]
    exact agrees

theorem Agrees.kernfs (agrees : Agrees proc) (inv : LogRing.Inv proc.log) {request : DigestRequest} {contents area : LogArea}
    (sent : proc.log.digest = .sent request)
    (walk : digestLogs contents request.startBlkno request.endBlkno request.nHdrs proc.log.log request.startDigest =
      some (area,answer)) (pending : List Place) :
    Agrees { proc with
      log := { proc.log with log := area,digest := .done answer }
      peer := updatePeerDigestState proc.peer answer.nextHdr answer.rotated
      pending := pending } := by
  left
  have bound := inv.version
  have waiting := inv.pending
  rw [Pending,sent] at waiting
  obtain ⟨covered,rest,last,rotated,split,hdrs,_,follows,coverage⟩ := waiting
  have listed : ∀ tx ∈ covered, tx ∈ proc.log.undigested := fun tx here => split ▸ List.mem_append_left _ here
  have apart := lap_apart inv.lap
  rw [split] at apart
  obtain ⟨_,walked,_⟩ := digestLogs_follows contents proc.log.log follows (fun tx here => inv.headers tx (listed tx here))
    (List.pairwise_append.mp apart).1 (fun tx here => (lap_bounds inv.lap tx (listed tx here)).2.1)
  rw [← hdrs,walk] at walked
  cases walked
  simp only [head]
  rcases agrees with same | ⟨request',sent',behind,covered',rest',last',split',hdrs',follows',below⟩
  · simp only [head,sent] at same
    rw [same,updatePeerDigestState]
    rcases coverage_forward coverage with ⟨rfl,forward⟩ | ⟨rfl,versions⟩
    · have forward : ¬last < proc.log.startBlk := not_lt.mpr forward
      simp [forward]
    · simp only [Bool.true_or,if_true,Bool.toNat_true]
      rw [Nat.mod_eq_of_lt (by omega)]
  · cases sent.symm.trans sent'
    have order := startVersion_le inv.lap
    obtain ⟨rfl,_⟩ := List.append_inj (split.symm.trans split') (hdrs.symm.trans hdrs')
    obtain ⟨rfl,rfl⟩ := follows_unique follows follows'
    simp only [updatePeerDigestState,below,decide_true,Bool.or_true,if_true,Bool.toNat_false,add_zero]
    rw [Nat.mod_eq_of_lt (by omega),behind]

theorem Agrees.step {after : Process} {action : LogRing.Action} (agrees : Agrees proc) (inv : ProcInv proc)
    (ok : RingOk threshold proc.log action) (done : logStep threshold proc action = some after) : Agrees after := by
  obtain ⟨log,stepped,rest⟩ := bind_eq_some_iff.mp done
  have none_ : ∀ log : LogRing.State, ∃ txs, log.undigested = log.undigested ++ txs := fun log => ⟨[],by simp⟩
  cases step_sound stepped with
  | request =>
    cases rest
    exact agrees.request inv.ring ok
  | enterFull idle above =>
    cases rest
    exact (agrees.request inv.ring (ok above)).keep rfl (none_ _) rfl rfl rfl
  | checkLow phase low =>
    cases rest
    have ahead := (of_decide_eq_true low).1
    exact (agrees.request inv.ring fun same => by omega).keep rfl (none_ _) rfl rfl rfl
  | reserve phase =>
    cases rest
    refine agrees.keep rfl ⟨[],?_⟩ ?_ ?_ ?_ <;> (unfold reserveBlocks wrapTail; dsimp only; split) <;> simp
  | enter idle | check phase | waited phase | retry phase | recheck phase _ =>
    cases rest
    exact agrees.keep rfl (none_ _) rfl rfl rfl
  | commit phase =>
    simp only [phase] at rest
    cases rest
    exact agrees.keep rfl ⟨_,rfl⟩ rfl rfl rfl
  | kernfs sent walk =>
    simp only [sent] at rest
    obtain ⟨_,rest⟩ := ite_none_right_eq_some.mp rest
    cases rest
    exact agrees.kernfs inv.ring sent walk _
  | respond ended handled =>
    cases rest
    rcases agrees with same | ⟨_,sent,_⟩
    · exact .inl (by rw [same,(inv.respond ended handled).2])
    · rw [ended] at sent
      cases sent

theorem digest_state_agrees (threshold logSbBlk : Nat) (log : LogArea) (actions : List LogRing.Action) (proc : Process)
    (ok : Guarded (logStep threshold) (fun proc action => RingOk threshold proc.log action) (initProcess logSbBlk log) actions)
    (ran : run (logStep threshold) (initProcess logSbBlk log) actions = some proc) (idle : proc.log.digest = .idle) :
    proc.peer.startVersion = proc.log.startVersion ∧ proc.peer.startDigest = proc.log.startBlk := by
  have inv := invariant_run (logStep threshold) _ (fun proc => ProcInv proc ∧ Agrees proc)
    (fun _ _ _ both ok done => ⟨logStep_inv both.1 ok done,both.2.step both.1 ok done⟩) _ proc actions
    ⟨init_procInv logSbBlk log,.inl rfl⟩ ok ran
  rcases inv.2 with same | ⟨_,sent,_⟩
  · rw [same]
    simp only [head,idle,and_self]
  · rw [idle] at sent
    cases sent

theorem digest_state_agrees_wrapped : ∃ proc,
    run (logStep 30) (initProcess 616960 blankLog) (wrappingRun ++ digestAll) = some proc ∧ proc.log.startVersion = 1 ∧
    proc.peer.startVersion = proc.log.startVersion ∧ proc.peer.startDigest = proc.log.startBlk := by
  obtain ⟨proc,ran,idle,version⟩ : ∃ proc, run (logStep 30) (initProcess 616960 blankLog) (wrappingRun ++ digestAll) =
      some proc ∧ proc.log.digest = .idle ∧ proc.log.startVersion = 1 := by decide +kernel
  exact ⟨proc,ran,version,digest_state_agrees 30 616960 blankLog _ proc (by decide +kernel) ran idle⟩

-- The `end` of the first lap stays after the wrap. Once the head is past it, LibFS moves the head back and counts a
-- lap.
def staleHeadRun : List LogRing.Action := wrappingRun ++ digestAll ++ digestedCommits 3 ++ commits 8 9 ++ digestAll

theorem stale_head_counts_lap : ∃ proc, run (logStep 30) (initProcess 616960 blankLog) staleHeadRun = some proc ∧
    proc.log.digest = .idle ∧ proc.log.startVersion = 2 ∧ proc.peer.startVersion = 1 ∧ proc.log.startBlk = proc.peer.startDigest := by decide +kernel

theorem clearCheckpoint_zero {item : Leases.Lease} {peer : Peer} (bound : peer.startVersion < 2 ^ 32) :
    let after := clearCheckpoint item.hid ((peer.startVersion : Int).bmod (2 ^ 32)) peer.startDigest item
    after.lversion = 0 ∧ after.lblock = 0 ↔ item.lversion = 0 ∧ item.lblock = 0 ∨ peer.startVersion < 2 ^ 31 ∧
      (peer.startVersion = item.lversion ∧ item.lblock ≤ peer.startDigest ∨ item.lversion < peer.startVersion) := by
  have signed := bmod_version bound
  generalize (peer.startVersion : Int).bmod (2 ^ 32) = version at signed ⊢
  simp only [clearCheckpoint,true_and]
  by_cases small : peer.startVersion < 2 ^ 31
  · rw [if_pos small] at signed
    split
    · split
      · simp only [and_self,true_iff]
        omega
      · omega
    · omega
  · rw [if_neg small] at signed
    rw [if_neg (by omega)]
    omega

theorem checkpoint_cleared_iff (table : List Leases.Lease) (i : Nat) (item : Leases.Lease) (peer : Peer) (listed : table[i]? = some item)
    (version : peer.startVersion < 2 ^ 32) (narrow : item.lversion < 2 ^ 16) :
    (∃ after, (clearLeaseCheckpoints item.hid ((peer.startVersion : Int).bmod (2 ^ 32)) peer.startDigest table)[i]? = some after ∧
      (after.lversion = 0 ∧ after.lblock = 0 ↔ waits peer item.lversion item.lblock = false) ∧
      (after.lversion = 0 ∧ after.lblock = 0 → ∀ later : Peer, 0 < later.startDigest → waits later after.lversion after.lblock = false)) ↔
    peer ≠ ⟨item.lversion,item.lblock⟩ ∧ (item.lversion = 0 ∧ item.lblock = 0 ∨ peer.startVersion < 2 ^ 31) := by
  have zero := @clearCheckpoint_zero item peer version
  have returns : waits peer item.lversion item.lblock = false ↔
      ¬(peer.startVersion < item.lversion ∨ peer.startVersion = item.lversion ∧ peer.startDigest ≤ item.lblock) := decide_eq_false_iff_not
  have same : peer = ⟨item.lversion,item.lblock⟩ ↔ peer.startVersion = item.lversion ∧ peer.startDigest = item.lblock := by
    rw [Peer.mk.injEq]
  rw [clearLeaseCheckpoints,List.getElem?_map,listed,map_some]
  dsimp only at zero
  rw [ne_eq,same]
  constructor
  · rintro ⟨after,here,exactly,_⟩
    cases here
    rw [zero,returns] at exactly
    omega
  · intro apart
    refine ⟨_,rfl,?_,fun both later positive => ?_⟩
    · rw [zero,returns]
      omega
    · rw [both.1,both.2]
      exact decide_eq_false (by omega)

theorem checkpoint_cleared_passed : ∃ after,
    (clearLeaseCheckpoints 1 ((2 : Int).bmod (2 ^ 32)) 616971 [⟨.write,0,2,616961,1,0⟩,⟨.write,0,2,616961,3,0⟩])[0]? = some after ∧
      (after.lversion = 0 ∧ after.lblock = 0 ↔ waits ⟨2,616971⟩ 2 616961 = false) ∧
      (after.lversion = 0 ∧ after.lblock = 0 → ∀ later : Peer, 0 < later.startDigest → waits later after.lversion after.lblock = false) :=
  (checkpoint_cleared_iff [⟨.write,0,2,616961,1,0⟩,⟨.write,0,2,616961,3,0⟩] 0 ⟨.write,0,2,616961,1,0⟩ ⟨2,616971⟩ rfl (by decide)
    (by decide)).mpr ⟨by decide,.inr (by decide)⟩

-- The digest of the first transaction ends at the header of the second, which the holder reported: the record is
-- cleared.
theorem checkpoint_cleared_early : ∃ s s', run (step 30) device (shortDigestRun.take 16) = some s ∧ step 30 s (.clear 1) = some s' ∧
    s.lease.hid = 1 ∧ s.lease.lblock = 616971 ∧ (s.procs 1).pending = [⟨0,616971⟩] ∧
    waits (s.procs 1).peer s.lease.lversion s.lease.lblock = true ∧ s'.lease.lversion = 0 ∧ s'.lease.lblock = 0 := by decide +kernel

end Assise.LeaseHandover
