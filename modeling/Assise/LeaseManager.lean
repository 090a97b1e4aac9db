import Assise.Leases
import Mathlib.Data.Set.Card

-- What KernFS does with the messages of a lease: as a node that is not its manager, and as its only manager
-- when processes also exit.
namespace Assise.Leases
open Lib.Runs Option List

variable {s s' : State} {n p q : Nat} {ls : Lease}

-- What a node has to handle: a request or a surrender that arrives, and a request that passed the first test of the
-- manager.
inductive Arrival where
  | request (q : Nat)
  | surrender (q version block : Nat)
  | entered (q : Nat) (elapsed : Bool)

def handle (cluster : Cluster) (s : State) (n : Nat) : Arrival → Option State
  | .request q => some (enterRequest s n q)
  | .surrender q version block => surrendered s n q version block
  | .entered q elapsed => lockLease cluster s n q elapsed

-- The answer `invalid` names no manager: the process asks the same node again.
def directed (current : Nat) : Message → Bool
  | .lease n _ | .surrender n _ _ _ => n = current
  | _ => false

def Redirects (cluster : Cluster) (s : State) (n current : Nat) (arrival : Arrival) : Prop :=
  ∃ s' redirect, handle cluster s n arrival = some s' ∧ s'.net = s.net ++ [redirect] ∧ directed current redirect = true ∧
    (s'.nodes n).lget = (s.nodes n).lget ∧ (s'.nodes n).mutex = (s.nodes n).mutex

-- The node sends nothing to a manager.
def Quiet (s s' : State) : Prop := ∃ sent, s'.net = s.net ++ sent ∧ ∀ message ∈ sent, ∀ current, directed current message = false

theorem Quiet.not_redirected {current : Nat} {redirect : Message} (quiet : Quiet s s') (sent : s'.net = s.net ++ [redirect]) :
    directed current redirect = false := by
  obtain ⟨all,net,silent⟩ := quiet
  have same := append_cancel_left (net.symm.trans sent)
  exact silent redirect (by simp [same]) current

theorem quiet_none (net : s'.net = s.net) : Quiet s s' := ⟨[],by simp [net],fun _ listed => by cases listed⟩

theorem quiet_one {message : Message} (net : s'.net = s.net ++ [message]) (silent : ∀ current, directed current message = false) :
    Quiet s s' := ⟨_,net,fun _ listed current => mem_singleton.mp listed ▸ silent current⟩

theorem wrongManager_quiet (mid q current : Nat) : directed current (wrongManager mid q) = false := by
  unfold wrongManager
  split <;> rfl

theorem enterRequest_quiet (s : State) (n q : Nat) : Quiet s (enterRequest s n q) := by
  unfold enterRequest
  dsimp only
  split
  · exact quiet_one rfl (wrongManager_quiet _ q)
  · exact quiet_none rfl

theorem grantLease_quiet (cluster : Cluster) (s : State) (n q : Nat) (elapsed : Bool) : Quiet s (grantLease cluster s n q elapsed) := by
  unfold grantLease
  dsimp only
  split
  · refine ⟨_,rfl,fun message listed current => ?_⟩
    rcases mem_append.mp listed with migrates | answer
    · obtain ⟨_,_,rfl⟩ := mem_map.mp migrates
      rfl
    · exact mem_singleton.mp answer ▸ rfl
  · exact quiet_one rfl fun _ => rfl

theorem lockLease_quiet {cluster : Cluster} {elapsed : Bool} (done : lockLease cluster s n q elapsed = some s') : Quiet s s' := by
  obtain ⟨_,branch⟩ := ite_none_right_eq_some.mp done
  split at branch
  · cases branch
    exact quiet_one rfl (wrongManager_quiet _ q)
  · split at branch <;> cases branch
    · exact grantLease_quiet ..
    · exact quiet_one rfl fun _ => rfl

theorem redirects_iff (cluster : Cluster) (s : State) (n current : Nat) (other : current ≠ n) (arrival : Arrival) :
    Redirects cluster s n current arrival ↔
      (s.nodes n).lget.mid = current ∧ 0 < current ∧ ∃ q version block, arrival = .surrender q version block := by
  constructor
  · rintro ⟨s',redirect,done,sent,named,_⟩
    cases arrival with
    | request q =>
      cases done
      rw [(enterRequest_quiet s n q).not_redirected sent] at named
      cases named
    | entered q elapsed =>
      rw [(lockLease_quiet done).not_redirected sent] at named
      cases named
    | surrender q version block =>
      dsimp only [handle,surrendered] at done
      split at done
      · cases done
        have message := append_cancel_left sent
        split at message
        · rename_i positive
          cases message
          obtain rfl : (s.nodes n).lget.mid = current := of_decide_eq_true named
          exact ⟨rfl,positive,q,version,block,rfl⟩
        · cases message
      · -- the node takes itself for the manager
        obtain ⟨_,_,rfl⟩ := map_eq_some_iff.mp done
        rw [(quiet_none rfl).not_redirected sent] at named
        cases named
  · rintro ⟨rfl,positive,q,version,block,rfl⟩
    refine ⟨_,_,if_pos other,congrArg (s.net ++ ·) (if_pos positive),decide_eq_true rfl,?_⟩
    rw [send,nodes_own]
    exact ⟨rfl,rfl⟩

theorem redirects_migrated : ∃ s, run (step (built 2 (· - 3))) initial handOverRun = some s ∧ (s.nodes 0).lget.mid = 1 ∧
    Redirects (built 2 (· - 3)) s 0 1 (.surrender 4 0 616961) :=
  ⟨_,rfl,rfl,(redirects_iff _ _ 0 1 (by decide) _).mpr ⟨rfl,by decide,_,_,_,rfl⟩⟩

-- Two requests wait at node 0. The first grant moves the lease, and the second request returns with the mutex.
def racingRun : List Action :=
  [.acquire 4,.acquire 5,.deliver (.lease 0 4),.deliver (.lease 0 5),.lock 0 4 true]

-- Without LAZY_SURRENDER, the process returns the lease after it has moved.
def returningRun : List Action :=
  [.acquire 4,.deliver (.lease 0 4),.lock 0 4 true,.deliver (.migrate 1 1),.deliver (.ack 4),.mark 4 0 616961,.deliver (.surrender 0 4 0 616961)]

-- The process that asks node 0 again, and the one that has the lock. Node 1 does not know that it manages the lease and
-- drops the surrender that node 0 sent on.
theorem redirect_fails :
    (∃ s s', run (step (built 2 (· - 3))) initial (racingRun ++ [.acquire 6]) = some s ∧ (s.nodes 0).lget.mid = 1 ∧
      run (step (built 2 (· - 3))) s [.deliver (.lease 0 6),.deliver (.invalid 6)] = some s' ∧ .lease 0 6 ∈ s'.net) ∧
    (∃ s s', run (step (built 2 (· - 3))) initial racingRun = some s ∧ (s.nodes 0).lget.mid = 1 ∧
      step (built 2 (· - 3)) s (.lock 0 5 false) = some s' ∧ (s'.nodes 0).mutex = .leaked) ∧
    ∃ s s', run (step ⟨2,(· - 3),false⟩) initial returningRun = some s ∧ s.net = [.surrender 1 4 0 616961] ∧
      (s.nodes 1).lget.mid = 0 ∧ step ⟨2,(· - 3),false⟩ s (.deliver (.surrender 1 4 0 616961)) = some s' ∧ s'.net = [] ∧
      (s'.nodes 0).lget.holders = 1 :=
  ⟨⟨_,_,rfl,rfl,rfl,by decide⟩,⟨_,_,rfl,rfl,rfl,rfl⟩,_,_,rfl,rfl,rfl,rfl,rfl,rfl⟩

def addressed (p : Nat) : Message → Bool
  | .ack q | .invalid q | .flush q => q = p
  | _ => false

def discardLeases (p : Nat) (ls : Lease) : Lease :=
  if ls.state = .write ∧ 0 < ls.holders ∧ ls.hid = p then { ls with lversion := 0,lblock := 0,holders := ls.holders - 1 } else ls

-- The number of the process may be given to a new one.
def exitProcess (s : State) (p : Nat) : State :=
  { setNode (setProc s p ⟨lcacheAllocAdd,.free⟩) 0 { s.nodes 0 with lease := some (discardLeases p (s.nodes 0).lget) } with
    net := s.net.filter fun message => !addressed p message }

inductive Event where
  | lease (action : Action)
  | exit (p : Nat)

def single : Cluster := built 1 fun _ => 0

def eventStep (s : State) : Event → Option State
  | .lease action => step single s action
  | .exit p => some (exitProcess s p)

def ExitsCleanly (s : State) : Event → Prop
  | .lease action => action.alone = true
  | .exit p => s.net.countP (frees p) = 0 ∧ .lease 0 p ∉ s.net ∧ p ∉ (s.nodes 0).entered ∧ serves p (s.nodes 0).mutex = false

instance (s : State) : ∀ event, Decidable (ExitsCleanly s event)
  | .lease _ => inferInstanceAs (Decidable (_ = _))
  | .exit _ => inferInstanceAs (Decidable (_ ∧ _))

def Granted (s : State) (p : Nat) : Prop :=
  Holds s p ∨ ∃ message ∈ s.net, acks p message ∨ frees p message

theorem Inv.granted_iff (inv : Inv s) : Granted s p ↔ (manager s).holders = 1 ∧ (manager s).hid = p := by
  have token := inv.token p
  have travels : (∃ message ∈ s.net, acks p message ∨ frees p message) ↔ 0 < s.net.countP (acks p) ∨ 0 < s.net.countP (frees p) := by
    rw [countP_pos_iff,countP_pos_iff,← exists_or]
    exact exists_congr fun message => and_or_left
  rw [Granted,travels]
  by_cases counted : (manager s).holders = 1 ∧ (manager s).hid = p
  · rw [owed,if_pos counted] at token
    refine ⟨fun _ => counted,fun _ => ?_⟩
    by_contra nowhere
    rw [decide_eq_false fun holds => nowhere (.inl holds),Bool.toNat_false] at token
    omega
  · rw [owed,if_neg counted] at token
    refine ⟨fun granted => ?_,fun known => absurd known counted⟩
    rcases granted with holds | _
    · rw [decide_eq_true holds,Bool.toNat_true] at token
      omega
    · omega

theorem Inv.holders_encard (inv : Inv s) : {p | Granted s p}.encard = (manager s).holders := by
  have few := inv.few
  by_cases one : (manager s).holders = 1
  · have only : {p | Granted s p} = {(manager s).hid} := by
      ext p
      exact inv.granted_iff.trans ⟨fun both => both.2.symm,fun same => ⟨one,same.symm⟩⟩
    rw [only,Set.encard_singleton,one]
    rfl
  · have nobody : {p | Granted s p} = ∅ := Set.eq_empty_of_forall_notMem fun p granted => one (inv.granted_iff.mp granted).1
    have zero : (manager s).holders = 0 := by omega
    rw [nobody,Set.encard_empty,zero]
    rfl

theorem Inv.surrender_found {version block : Nat} (inv : Inv s) (listed : .surrender n q version block ∈ s.net) :
    0 < (manager s).holders := by
  have held := (inv.granted_iff (p := q)).mp (.inr ⟨_,listed,.inr (decide_eq_true rfl)⟩)
  omega

theorem Inv.flush_found (inv : Inv s) (listed : .flush p ∈ s.net) (open_ : (s.procs p).lock = .free) : (s.procs p).lease.hid = p := by
  have sent : 0 < s.net.countP (flushes p) := countP_pos_iff.mpr ⟨_,listed,decide_eq_true rfl⟩
  have answered : s.net.countP (acks p) ≤ s.net.countP (asks p) :=
    countP_mono_left fun message _ hit => by cases message <;> first | exact hit | cases hit
  have flushing := inv.flushing p
  have token := inv.token p
  have asked := inv.asked p
  have due := owedFlush_le (s.nodes 0).mutex (manager s) p
  have one := owed_le (manager s) p
  simp only [open_,reduceCtorEq,decide_false,Bool.toNat_false] at asked
  by_contra other
  rw [decide_eq_false fun holds : Holds s p => other holds.2.1,Bool.toNat_false] at token
  omega

def Written (s : State) : Prop := (manager s).state = .write ∨ (manager s).holders = 0

theorem grantLease_written (cluster : Cluster) (s : State) (q : Nat) (elapsed : Bool) : Written (grantLease cluster s 0 q elapsed) := by
  left
  unfold grantLease
  dsimp only
  split <;> simp only [manager,send,nodes_own] <;> rfl

theorem step_written {cluster : Cluster} {action : Action} (written : Written s) (inv : Inv s)
    (done : step cluster s action = some s') : Written s' := by
  cases action with
  | acquire p =>
    obtain ⟨_,branch⟩ := ite_none_right_eq_some.mp done
    split at branch <;> cases branch <;> exact written
  | mark p version block =>
    cases done
    unfold markLeaseRevocable
    dsimp only
    split
    · exact written
    · split <;> exact written
  | surrender p | revoked p =>
    obtain ⟨_,branch⟩ := ite_none_right_eq_some.mp done
    cases branch
    exact written
  | deliver message =>
    obtain ⟨listed,received⟩ := ite_none_right_eq_some.mp done
    have routed := inv.routed message listed
    cases message with
    | lease n requester =>
      obtain rfl : n = 0 := routed
      cases received
      unfold enterRequest
      dsimp only
      split <;> exact written
    | surrender n requester version block =>
      obtain rfl : n = 0 := routed
      have positive := inv.surrender_found listed
      have received : (if (s.nodes 0).lget.mid ≠ 0 then _ else _) = some s' := received
      split at received
      · cases received
        exact written
      · obtain ⟨ls,lowered,rfl⟩ := map_eq_some_iff.mp received
        obtain ⟨_,same⟩ := ite_none_right_eq_some.mp lowered
        cases same
        exact .inl (written.resolve_right (Nat.pos_iff_ne_zero.mp positive))
    | ack p | invalid p =>
      cases received
      first | unfold leaseAcquired | unfold reportLeaseError
      dsimp only
      split <;> exact written
    | flush p =>
      obtain ⟨_,branch⟩ := ite_none_right_eq_some.mp received
      cases branch
      exact written
    | migrate n kernfs =>
      cases received
      have away : (0 : Nat) ≠ n := Ne.symm routed
      unfold Written manager updateLeaseManager
      rw [nodes_other _ _ away]
      exact written
  | lock n requester elapsed =>
    obtain ⟨⟨_,waits⟩,branch⟩ := ite_none_right_eq_some.mp done
    by_cases home : n = 0
    · subst home
      split at branch
      · cases branch
        exact written
      · split at branch
        · cases branch
          exact grantLease_written ..
        · cases branch
          exact written
    · rw [(inv.elsewhere n home).1] at waits
      cases waits
  | released n =>
    by_cases home : n = 0
    · subst home
      simp only [step,leaseReleased] at done
      split at done
      · obtain ⟨_,branch⟩ := ite_none_right_eq_some.mp done
        cases branch
        exact written
      · cases done
    · simp only [step,leaseReleased,(inv.elsewhere n home).2] at done
      cases done
  | checkpoint n elapsed =>
    by_cases home : n = 0
    · subst home
      simp only [step,checkpointReached] at done
      split at done
      · cases done
        exact grantLease_written ..
      · cases done
    · simp only [step,checkpointReached,(inv.elsewhere n home).2] at done
      cases done
  | overtaken p =>
    cases done
    unfold leaseAcquired
    dsimp only
    split <;> exact written

theorem kept_count {net : List Message} {f : Message → Bool} (quiet : ∀ message, addressed p message = true → f message = false) :
    (net.filter fun message => !addressed p message).countP f = net.countP f := by
  rw [countP_filter]
  refine countP_congr fun message _ => ?_
  cases hit : addressed p message with
  | false => simp
  | true => simp [quiet message hit]

theorem kept_none {net : List Message} {f : Message → Bool} (own : ∀ message ∈ net, f message = true → addressed p message = true) :
    (net.filter fun message => !addressed p message).countP f = 0 := by
  refine countP_eq_zero.mpr fun message listed hit => ?_
  obtain ⟨here,kept⟩ := mem_filter.mp listed
  rw [own message here hit] at kept
  cases kept

theorem discardLeases_owed (written : ls.state = .write ∨ ls.holders = 0) (few : ls.holders ≤ 1) (q : Nat) :
    owed (discardLeases p ls) q = if q = p then 0 else owed ls q := by
  unfold discardLeases owed
  split
  · rename_i held
    rw [if_neg (by dsimp only; omega)]
    split
    · rfl
    · exact (if_neg (by omega)).symm
  · rename_i other
    by_cases own : q = p
    · rw [if_pos own]
      exact if_neg fun both => other ⟨written.resolve_right (by omega),by omega,own ▸ both.2⟩
    · rw [if_neg own]

theorem Inv.exit (inv : Inv s) (written : Written s) (clean : ExitsCleanly s (.exit p)) :
    Inv (exitProcess s p) ∧ Written (exitProcess s p) := by
  obtain ⟨freed,asked_,entered,served⟩ := clean
  have home : (exitProcess s p).nodes 0 = { s.nodes 0 with lease := some (discardLeases p (s.nodes 0).lget) } := by
    rw [exitProcess,nodes_own]
  have manager_ : manager (exitProcess s p) = discardLeases p (manager s) := by rw [manager,home]; rfl
  have due := fun q => @discardLeases_owed p (manager s) written inv.few q
  have own : (exitProcess s p).procs p = ⟨lcacheAllocAdd,.free⟩ := Function.update_self ..
  have others : ∀ q, q ≠ p → (exitProcess s p).procs q = s.procs q := fun q other => Function.update_of_ne other ..
  have lower : (discardLeases p (manager s)).holders ≤ (manager s).holders := by
    unfold discardLeases
    split
    · exact Nat.sub_le ..
    · exact le_refl _
  have frees_ : ∀ q, (exitProcess s p).net.countP (frees q) = s.net.countP (frees q) := fun q =>
    kept_count fun message hit => by cases message <;> first | rfl | cases hit
  have quiet : ∀ q, q ≠ p → (exitProcess s p).net.countP (asks q) = s.net.countP (asks q) ∧
      (exitProcess s p).net.countP (acks q) = s.net.countP (acks q) ∧
      (exitProcess s p).net.countP (flushes q) = s.net.countP (flushes q) := by
    intro q other
    refine ⟨?_,?_,?_⟩ <;>
      (refine kept_count fun message hit => ?_
       cases message <;> first | rfl | cases hit | exact decide_eq_false fun same => other (same.symm.trans (of_decide_eq_true hit)))
  have none_ : (exitProcess s p).net.countP (asks p) = 0 ∧ (exitProcess s p).net.countP (acks p) = 0 ∧
      (exitProcess s p).net.countP (flushes p) = 0 := by
    refine ⟨kept_none fun message listed hit => ?_,kept_none fun message _ hit => ?_,kept_none fun message _ hit => ?_⟩
    · have routed := inv.routed message listed
      cases message with
      | lease n q =>
        obtain rfl : n = 0 := routed
        obtain rfl : q = p := of_decide_eq_true hit
        exact absurd listed asked_
      | ack _ | invalid _ => exact hit
      | surrender _ _ _ _ | flush _ | migrate _ _ => cases hit
    · cases message <;> first | exact hit | cases hit
    · cases message <;> first | exact hit | cases hit
  refine ⟨{
    mids := fun q => ?_
    elsewhere := fun n other => ?_
    routed := fun message listed => inv.routed message (mem_of_mem_filter listed)
    asked := fun q => ?_
    fresh := fun q => ?_
    few := manager_ ▸ le_trans lower inv.few
    token := fun q => ?_
    flushing := fun q => ?_
    managing := ?_
    released := ?_ },?_⟩
  · by_cases same : q = p
    · rw [same,own]
      rfl
    · rw [others q same]
      exact inv.mids q
  · rw [exitProcess,nodes_other _ _ other]
    exact inv.elsewhere n other
  · rw [home]
    by_cases same : q = p
    · rw [same,own,none_.1]
      simp [served,count_eq_zero.mpr entered]
    · rw [others q same,(quiet q same).1]
      exact inv.asked q
  · by_cases same : q = p
    · rw [same,own]
      intro busy
      cases busy
    · rw [others q same]
      exact inv.fresh q
  · rw [manager_,due,frees_]
    by_cases same : q = p
    · rw [if_pos same,same,none_.2.1,freed,decide_eq_false fun holds : Holds _ p => by rw [Holds,own] at holds; cases holds.1]
      rfl
    · have holds : Holds (exitProcess s p) q ↔ Holds s q := by rw [Holds,Holds,others q same]
      rw [if_neg same,(quiet q same).2.1,decide_eq_decide.mpr holds]
      exact inv.token q
  · have flush : owedFlush (s.nodes 0).mutex (discardLeases p (manager s)) q = if q = p then 0 else owedFlush (s.nodes 0).mutex (manager s) q := by
      cases (s.nodes 0).mutex with
      | flushed _ => exact due q
      | free | waiting _ | leaked => exact (ite_self 0).symm
    rw [manager_,home,flush,frees_]
    by_cases same : q = p
    · rw [if_pos same,same,none_.2.2,freed,own]
      rfl
    · rw [if_neg same,(quiet q same).2.2,others q same]
      exact inv.flushing q
  · intro requester busy
    rw [home] at busy
    have mid : (discardLeases p (manager s)).mid = (manager s).mid := by
      unfold discardLeases
      split <;> rfl
    rw [manager_,mid]
    exact inv.managing requester busy
  · intro requester busy
    rw [home] at busy
    have zero := inv.released requester busy
    rw [manager_]
    omega
  · have state : (discardLeases p (manager s)).state = (manager s).state := by
      unfold discardLeases
      split <;> rfl
    rw [Written,manager_,state]
    exact written.imp_right fun zero => by omega

theorem eventStep_inv {event : Event} (both : Inv s ∧ Written s) (clean : ExitsCleanly s event)
    (done : eventStep s event = some s') : Inv s' ∧ Written s' := by
  cases event with
  | lease action => exact ⟨step_inv rfl both.1 clean done,step_written both.2 both.1 done⟩
  | exit p =>
    cases done
    exact both.1.exit both.2 clean

theorem holders_count_granted (events : List Event) (s : State) (ok : Guarded eventStep ExitsCleanly initial events)
    (ran : run eventStep initial events = some s) :
    (manager s).holders ≤ 1 ∧ {p | Granted s p}.encard = (manager s).holders ∧
    (∀ n q version block, .surrender n q version block ∈ s.net → 0 < (manager s).holders) ∧
    (∀ p, .flush p ∈ s.net → (s.procs p).lock = .free → (s.procs p).lease.hid = p) := by
  have inv := (invariant_run eventStep ExitsCleanly (fun s => Inv s ∧ Written s) (fun _ _ _ both clean done => eventStep_inv both clean done)
    initial s events ⟨initial_inv,.inr rfl⟩ ok ran).1
  exact ⟨inv.few,inv.holders_encard,fun _ _ _ _ listed => inv.surrender_found listed,fun _ listed open_ => inv.flush_found listed open_⟩

theorem holders_count_granted_exit : ∃ s, run eventStep initial
      ((handOverRun.take 8).map .lease ++ [.exit 3,.lease (.released 0),.lease (.checkpoint 0 false)]) = some s ∧
    (manager s).holders = 1 ∧ {p | Granted s p}.encard = (manager s).holders :=
  ⟨_,rfl,rfl,(holders_count_granted ((handOverRun.take 8).map .lease ++ [.exit 3,.lease (.released 0),.lease (.checkpoint 0 false)]) _
    (by decide) rfl).2.1⟩

-- The holder exits before KernFS has its surrender: the lease is returned twice.
theorem late_surrender_stops : ∃ s, run eventStep initial ((handOverRun.take 10).map .lease ++ [.exit 3]) = some s ∧
    .surrender 0 3 0 616961 ∈ s.net ∧ (manager s).holders = 0 ∧ eventStep s (.lease (.deliver (.surrender 0 3 0 616961))) = none :=
  ⟨_,rfl,by decide,rfl,rfl⟩

end Assise.Leases
