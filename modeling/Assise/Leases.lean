import Assise.Lib.Runs
import Mathlib.Data.List.Count
import Mathlib.Logic.Function.Basic
import Mathlib.Tactic

-- The lease protocol for one inode: LibFS processes that cache the lease, KernFS nodes that manage it, and the messages
-- between them. They are numbered from one range, KernFS nodes first.
namespace Assise.Leases
open Lib.Runs Function List
open Option hiding or_self

inductive LeaseType where
  | free
  | read
  | write
deriving DecidableEq, Repr

-- The record of the lease, as LibFS and KernFS both keep it. `holders` has 8 bits and `lversion` 16.
structure Lease where
  state : LeaseType
  holders : Nat
  lversion : Nat
  lblock : Nat
  hid : Nat
  mid : Nat
deriving DecidableEq, Repr

def lcacheAllocAdd : Lease := ⟨.free,0,0,0,0,0⟩

-- Messages carry the receiver first. `lease` is a request for the write lease, `surrender`
-- the same message with type LEASE_FREE; `ack` and `invalid` answer a request.
inductive Message where
  | lease (manager requester : Nat)
  | surrender (manager requester version block : Nat)
  | ack (requester : Nat)
  | invalid (requester : Nat)
  | flush (holder : Nat)
  | migrate (node kernfs : Nat)
deriving DecidableEq, Repr

-- Who has the mutex of a record in a LibFS process: a thread that waits for its answer, or the handler of a flush
-- before and after its surrender.
inductive Lock where
  | free
  | acquiring
  | revoking
  | surrendering
deriving DecidableEq, Repr

structure LibFS where
  lease : Lease
  lock : Lock
deriving DecidableEq, Repr

-- Who has the mutex of a record in KernFS: nobody, a request that waits for the holder or
-- for its digest, or a thread that returned without unlocking.
inductive Mutex where
  | free
  | flushed (requester : Nat)
  | waiting (requester : Nat)
  | leaked
deriving DecidableEq, Repr

-- `lease` is the record in the lease table, if any; `entered` the requests between the two tests of the manager.
structure KernFS where
  lease : Option Lease
  entered : List Nat
  mutex : Mutex
deriving DecidableEq, Repr

structure State where
  procs : Nat → LibFS
  nodes : Nat → KernFS
  net : List Message

-- The number of KernFS nodes, the node each process runs on, and whether LibFS is built with
-- LAZY_SURRENDER, as its Makefile says.
structure Cluster where
  nNodes : Nat
  localKernfsId : Nat → Nat
  lazySurrender : Bool

def initial : State where
  procs := fun _ => ⟨lcacheAllocAdd,.free⟩
  nodes := fun _ => ⟨none,[],.free⟩
  net := []

def setProc (s : State) (p : Nat) (proc : LibFS) : State := { s with procs := update s.procs p proc }

def setNode (s : State) (n : Nat) (node : KernFS) : State := { s with nodes := update s.nodes n node }

def send (s : State) (messages : List Message) : State := { s with net := s.net ++ messages }

-- LibFS

def acquireLease (s : State) (p : Nat) : Option State :=
  let proc := s.procs p
  if proc.lock = .free then
    if proc.lease.state ≠ .write ∨ proc.lease.hid ≠ p then
      some (send (setProc s p { proc with lock := .acquiring }) [.lease proc.lease.mid p])
    else some (setProc s p { proc with lease := { proc.lease with holders := (proc.lease.holders + 1) % 2 ^ 8 } })
  else none

def leaseAcquired (s : State) (p : Nat) : State :=
  let proc := s.procs p
  if proc.lock = .acquiring then
    setProc s p ⟨{ proc.lease with holders := (proc.lease.holders + 1) % 2 ^ 8,state := .write,hid := p },.free⟩
  else s

-- `report_lease_error`, and the retry of the thread that finds the error.
def reportLeaseError (s : State) (p : Nat) : State :=
  let proc := s.procs p
  if proc.lock = .acquiring then send s [.lease proc.lease.mid p] else s

-- `version` and `block` are those of the log after the last commit. Takes no lock.
def markLeaseRevocable (cluster : Cluster) (s : State) (p version block : Nat) : State :=
  let proc := s.procs p
  if proc.lease.holders = 0 then s
  else
    let lease := { proc.lease with lversion := version % 2 ^ 16,lblock := block,holders := proc.lease.holders - 1 }
    if proc.lease.holders = 1 ∧ cluster.lazySurrender = false then
      send (setProc s p { proc with lease := { lease with state := .free } })
        [.surrender lease.mid p lease.lversion lease.lblock]
    else setProc s p { proc with lease := lease }

-- `revoke_lease` up to its wait for the threads that use the lease. A process that does not have the lease stops.
def revokeLease (s : State) (p : Nat) : Option State :=
  let proc := s.procs p
  if proc.lock = .free ∧ proc.lease.hid = p then some (setProc s p { proc with lock := .revoking }) else none

def surrenderLease (s : State) (p : Nat) : Option State :=
  let proc := s.procs p
  if proc.lock = .revoking ∧ proc.lease.holders = 0 then
    some (send (setProc s p { proc with lock := .surrendering })
      [.surrender proc.lease.mid p proc.lease.lversion proc.lease.lblock])
  else none

def leaseRevoked (s : State) (p : Nat) : Option State :=
  let proc := s.procs p
  if proc.lock = .surrendering then
    some (setProc s p ⟨{ proc.lease with state := .free,hid := proc.lease.mid },.free⟩)
  else none

-- KernFS

def KernFS.lget (node : KernFS) : Lease := node.lease.getD lcacheAllocAdd

def wrongManager (mid requester : Nat) : Message := if 0 < mid then .invalid requester else .ack requester

def enterRequest (s : State) (n requester : Nat) : State :=
  let node := s.nodes n
  if node.lget.mid ≠ n then
    send (setNode s n { node with lease := some node.lget }) [wrongManager node.lget.mid requester]
  else setNode s n { node with lease := some node.lget,entered := node.entered ++ [requester] }

def Lease.grant (requester : Nat) (ls : Lease) : Lease :=
  { ls with holders := (ls.holders + 1) % 2 ^ 8,state := .write,hid := requester }

-- `elapsed` says whether a second has passed since the last migration.
def grantLease (cluster : Cluster) (s : State) (n requester : Nat) (elapsed : Bool) : State :=
  let node := s.nodes n
  let ls := node.lget.grant requester
  if cluster.localKernfsId requester ≠ n ∧ elapsed then
    send (setNode s n { node with lease := some { ls with mid := cluster.localKernfsId requester },mutex := .free })
      (((List.range cluster.nNodes).filter (· ≠ n)).map (.migrate · (cluster.localKernfsId requester)) ++ [.ack requester])
  else send (setNode s n { node with lease := some ls,mutex := .free }) [.ack requester]

-- The mutex is taken. The second test of the manager returns without giving it back.
def lockLease (cluster : Cluster) (s : State) (n requester : Nat) (elapsed : Bool) : Option State :=
  let node := s.nodes n
  if node.mutex = .free ∧ requester ∈ node.entered then
    let s := setNode s n { node with entered := node.entered.erase requester }
    if node.lget.mid ≠ n then
      some (send (setNode s n { s.nodes n with mutex := .leaked }) [wrongManager node.lget.mid requester])
    else if node.lget.holders = 0 then some (grantLease cluster s n requester elapsed)
    else some (send (setNode s n { s.nodes n with mutex := .flushed requester }) [.flush node.lget.hid])
  else none

def leaseReleased (s : State) (n : Nat) : Option State :=
  let node := s.nodes n
  match node.mutex with
  | .flushed requester => if node.lget.holders = 0 then some (setNode s n { node with mutex := .waiting requester }) else none
  | _ => none

def checkpointReached (cluster : Cluster) (s : State) (n : Nat) (elapsed : Bool) : Option State :=
  match (s.nodes n).mutex with
  | .waiting requester => some (grantLease cluster s n requester elapsed)
  | _ => none

def Lease.surrender (version block : Nat) (ls : Lease) : Option Lease :=
  if 0 < ls.holders then some { ls with lversion := version % 2 ^ 16,lblock := block,holders := ls.holders - 1 } else none

-- A surrender that reaches the wrong manager is forwarded. Takes no lock.
def surrendered (s : State) (n requester version block : Nat) : Option State :=
  let node := s.nodes n
  if node.lget.mid ≠ n then
    some (send (setNode s n { node with lease := some node.lget })
      (if 0 < node.lget.mid then [.surrender node.lget.mid requester version block] else []))
  else (node.lget.surrender version block).map fun ls => setNode s n { node with lease := some ls }

def updateLeaseManager (s : State) (n kernfs : Nat) : State :=
  let node := s.nodes n
  setNode s n { node with lease := node.lease.map ({ · with mid := kernfs }) }

def receive (s : State) : Message → Option State
  | .lease n requester => some (enterRequest s n requester)
  | .surrender n requester version block => surrendered s n requester version block
  | .ack p => some (leaseAcquired s p)
  | .invalid p => some (reportLeaseError s p)
  | .flush p => revokeLease s p
  | .migrate n kernfs => some (updateLeaseManager s n kernfs)

-- A delivery takes any message in flight, whatever the connections' order would allow. `MP_AWAIT_RESPONSE` also ends
-- on the answer to a later request, for another inode, of another thread of the process: the wait is overtaken.
inductive Action where
  | acquire (p : Nat)
  | mark (p version block : Nat)
  | surrender (p : Nat)
  | revoked (p : Nat)
  | deliver (message : Message)
  | lock (n requester : Nat) (elapsed : Bool)
  | released (n : Nat)
  | checkpoint (n : Nat) (elapsed : Bool)
  | overtaken (p : Nat)

def step (cluster : Cluster) (s : State) : Action → Option State
  | .acquire p => acquireLease s p
  | .mark p version block => some (markLeaseRevocable cluster s p version block)
  | .surrender p => surrenderLease s p
  | .revoked p => leaseRevoked s p
  | .deliver message => if message ∈ s.net then receive { s with net := s.net.erase message } message else none
  | .lock n requester elapsed => lockLease cluster s n requester elapsed
  | .released n => leaseReleased s n
  | .checkpoint n elapsed => checkpointReached cluster s n elapsed
  | .overtaken p => some (leaseAcquired s p)

-- A process has one request at a time on its connection.
def Action.alone : Action → Bool
  | .overtaken _ => false
  | _ => true

-- What the next thread that gets the mutex finds: between its surrender and the update the handler of a flush keeps
-- every thread out.
def Holds (s : State) (p : Nat) : Prop :=
  (s.procs p).lease.state = .write ∧ (s.procs p).lease.hid = p ∧ (s.procs p).lock ≠ .surrendering

instance (s : State) (p : Nat) : Decidable (Holds s p) := inferInstanceAs (Decidable (_ ∧ _))

def asks (p : Nat) : Message → Bool
  | .lease _ q | .ack q | .invalid q => q = p
  | _ => false

def frees (p : Nat) : Message → Bool
  | .surrender _ q _ _ => q = p
  | _ => false

def acks (p : Nat) : Message → Bool
  | .ack q => q = p
  | _ => false

def flushes (p : Nat) : Message → Bool
  | .flush q => q = p
  | _ => false

def serves (p : Nat) : Mutex → Bool
  | .flushed q | .waiting q => q = p
  | _ => false

def owed (ls : Lease) (p : Nat) : Nat := if ls.holders = 1 ∧ ls.hid = p then 1 else 0

def owedFlush : Mutex → Lease → Nat → Nat
  | .flushed _,ls,p => owed ls p
  | _,_,_ => 0

def Message.Routed : Message → Prop
  | .lease n _ | .surrender n _ _ _ => n = 0
  | .migrate n _ => n ≠ 0
  | .ack _ | .invalid _ | .flush _ => True

def manager (s : State) : Lease := (s.nodes 0).lget

-- LibFS never learns of a migration, so every process takes node 0 for the manager. A process has at most one request
-- on its way; the lease that node 0 counts is with its holder, in an answer or in a surrender; one flush leads to one
-- surrender.
structure Inv (s : State) : Prop where
  mids : ∀ p, (s.procs p).lease.mid = 0
  elsewhere : ∀ n, n ≠ 0 → (s.nodes n).entered = [] ∧ (s.nodes n).mutex = .free
  routed : ∀ message ∈ s.net, message.Routed
  asked : ∀ p, s.net.countP (asks p) + (s.nodes 0).entered.count p + (serves p (s.nodes 0).mutex).toNat =
    (decide ((s.procs p).lock = .acquiring)).toNat
  fresh : ∀ p, (s.procs p).lock = .acquiring → ¬((s.procs p).lease.state = .write ∧ (s.procs p).lease.hid = p)
  few : (manager s).holders ≤ 1
  token : ∀ p, (decide (Holds s p)).toNat + s.net.countP (acks p) + s.net.countP (frees p) =
    owed (manager s) p
  flushing : ∀ p, s.net.countP (flushes p) + (decide ((s.procs p).lock = .revoking)).toNat + s.net.countP (frees p) =
    owedFlush (s.nodes 0).mutex (manager s) p
  managing : ∀ requester, (s.nodes 0).mutex = .flushed requester ∨ (s.nodes 0).mutex = .waiting requester → (manager s).mid = 0
  released : ∀ requester, (s.nodes 0).mutex = .waiting requester → (manager s).holders = 0

theorem initial_inv : Inv initial where
  mids := fun _ => rfl
  elsewhere := fun _ _ => ⟨rfl,rfl⟩
  routed := fun _ listed => by cases listed
  asked := fun _ => rfl
  fresh := fun _ busy => by cases busy
  few := by decide
  token := fun _ => rfl
  flushing := fun _ => rfl
  managing := fun _ busy => by rcases busy with busy | busy <;> cases busy
  released := fun _ busy => by cases busy

variable {message : Message} {net : List Message} {s' s : State} {q p : Nat} {cluster : Cluster} {ls : Lease}

theorem count_erase_add (listed : message ∈ net) (f : Message → Bool) :
    (net.erase message).countP f + (f message).toNat = net.countP f := by
  rw [(perm_cons_erase listed).countP_eq,countP_cons]
  cases f message <;> rfl

theorem count_send (net : List Message) (message : Message) (f : Message → Bool) :
    (net ++ [message]).countP f = net.countP f + (f message).toNat := by
  rw [countP_append,countP_singleton]
  cases f message <;> rfl

-- What a step of one process has to keep: the messages of the others stay, and its own
-- request, lease and flush are where the invariant says.
structure Moved (s s' : State) (q : Nat) : Prop where
  nodes : s'.nodes = s.nodes
  others : ∀ p, p ≠ q → s'.procs p = s.procs p
  counts : ∀ p, p ≠ q → s'.net.countP (asks p) = s.net.countP (asks p) ∧ s'.net.countP (acks p) = s.net.countP (acks p) ∧
    s'.net.countP (frees p) = s.net.countP (frees p) ∧ s'.net.countP (flushes p) = s.net.countP (flushes p)
  mid : (s'.procs q).lease.mid = 0
  routed : ∀ message ∈ s'.net, message.Routed
  fresh : (s'.procs q).lock = .acquiring → ¬((s'.procs q).lease.state = .write ∧ (s'.procs q).lease.hid = q)
  asked : s'.net.countP (asks q) + (decide ((s.procs q).lock = .acquiring)).toNat =
    s.net.countP (asks q) + (decide ((s'.procs q).lock = .acquiring)).toNat
  token : (decide (Holds s' q)).toNat + s'.net.countP (acks q) + s'.net.countP (frees q) =
    (decide (Holds s q)).toNat + s.net.countP (acks q) + s.net.countP (frees q)
  flushing : s'.net.countP (flushes q) + (decide ((s'.procs q).lock = .revoking)).toNat + s'.net.countP (frees q) =
    s.net.countP (flushes q) + (decide ((s.procs q).lock = .revoking)).toNat + s.net.countP (frees q)

theorem Inv.moved (inv : Inv s) (moved : Moved s s' q) : Inv s' := by
  have same : manager s' = manager s := by rw [manager,manager,moved.nodes]
  exact {
    mids := fun p => by
      by_cases own : p = q
      · exact own ▸ moved.mid
      · rw [moved.others p own]
        exact inv.mids p
    elsewhere := by
      rw [moved.nodes]
      exact inv.elsewhere
    routed := moved.routed
    asked := fun p => by
      have before := inv.asked p
      rw [moved.nodes]
      by_cases own : p = q
      · have change_ := moved.asked
        rw [← own] at change_
        omega
      · rw [moved.others p own,(moved.counts p own).1]
        exact before
    fresh := fun p => by
      by_cases own : p = q
      · exact own ▸ moved.fresh
      · rw [moved.others p own]
        exact inv.fresh p
    few := by
      rw [same]
      exact inv.few
    token := fun p => by
      rw [same,← inv.token p]
      by_cases own : p = q
      · exact own ▸ moved.token
      · obtain ⟨_,acks_,frees_,_⟩ := moved.counts p own
        have holds : Holds s' p ↔ Holds s p := by rw [Holds,Holds,moved.others p own]
        rw [acks_,frees_,decide_eq_decide.mpr holds]
    flushing := fun p => by
      rw [same,moved.nodes,← inv.flushing p]
      by_cases own : p = q
      · exact own ▸ moved.flushing
      · obtain ⟨_,_,frees_,flushes_⟩ := moved.counts p own
        rw [frees_,flushes_,moved.others p own]
    managing := by
      rw [same,moved.nodes]
      exact inv.managing
    released := by
      rw [same,moved.nodes]
      exact inv.released }

theorem procs_other (s : State) (proc : LibFS) (other : p ≠ q) : (setProc s q proc).procs p = s.procs p :=
  update_of_ne other ..

theorem routed_send (old : ∀ m ∈ net, m.Routed) (new : message.Routed) :
    ∀ m ∈ net ++ [message], m.Routed := by
  intro m listed
  rcases mem_append.mp listed with here | here
  · exact old m here
  · exact mem_singleton.mp here ▸ new

theorem counts_other (asks_ : asks p message = false)
    (frees_ : frees p message = false) (flushes_ : flushes p message = false) :
    (net ++ [message]).countP (asks p) = net.countP (asks p) ∧ (net ++ [message]).countP (acks p) = net.countP (acks p) ∧
      (net ++ [message]).countP (frees p) = net.countP (frees p) ∧
      (net ++ [message]).countP (flushes p) = net.countP (flushes p) := by
  have acks_ : acks p message = false := by cases message <;> first | rfl | exact asks_
  simp only [count_send,asks_,acks_,frees_,flushes_,Bool.toNat_false,add_zero,and_self]

theorem Inv.touch (inv : Inv s) (q : Nat) {lease : Lease} (state : lease.state = (s.procs q).lease.state)
    (hid : lease.hid = (s.procs q).lease.hid) (mid : lease.mid = (s.procs q).lease.mid) :
    Inv (setProc s q { s.procs q with lease := lease }) :=
  inv.moved (q := q) {
    nodes := rfl
    others := fun p other => procs_other s _ other
    counts := fun _ _ => ⟨rfl,rfl,rfl,rfl⟩
    mid := by simpa [setProc,mid] using inv.mids q
    routed := inv.routed
    fresh := by simpa [setProc,state,hid] using inv.fresh q
    asked := by simp [setProc]
    token := by
      have holds : Holds (setProc s q { s.procs q with lease := lease }) q ↔ Holds s q := by simp [Holds,setProc,state,hid]
      rw [decide_eq_decide.mpr holds]
      rfl
    flushing := by simp [setProc] }

theorem Inv.acquire (inv : Inv s) (done : acquireLease s q = some s') : Inv s' := by
  unfold acquireLease at done
  obtain ⟨open_,branch⟩ := ite_none_right_eq_some.mp done
  split at branch
  · rename_i missing
    cases branch
    have mid := inv.mids q
    have without : ¬((s.procs q).lease.state = .write ∧ (s.procs q).lease.hid = q) := by tauto
    exact inv.moved (q := q) {
      nodes := rfl
      others := fun p other => procs_other s _ other
      counts := fun p other => counts_other (decide_eq_false other.symm) rfl rfl
      mid := by simpa [send,setProc] using mid
      routed := routed_send inv.routed mid
      fresh := by simpa [send,setProc] using without
      asked := by simp [send,setProc,asks,open_]
      token := by
        have holds : ¬Holds s q := fun holds => without ⟨holds.1,holds.2.1⟩
        have later : ¬Holds (send (setProc s q { s.procs q with lock := .acquiring }) [.lease (s.procs q).lease.mid q]) q :=
          fun holds => without (by simpa [Holds,send,setProc] using holds)
        rw [decide_eq_false holds,decide_eq_false later]
        simp [send,setProc,acks,frees]
      flushing := by simp [send,setProc,flushes,frees,open_] }
  · cases branch
    exact inv.touch q rfl rfl rfl

theorem Inv.mark (lazy : cluster.lazySurrender = true) (inv : Inv s) (q version block : Nat) :
    Inv (markLeaseRevocable cluster s q version block) := by
  unfold markLeaseRevocable
  dsimp only
  split
  · exact inv
  · rw [if_neg (by simp [lazy])]
    exact inv.touch q rfl rfl rfl

theorem owed_le (ls : Lease) (p : Nat) : owed ls p ≤ 1 := by
  unfold owed
  split <;> omega

theorem owedFlush_le (mutex : Mutex) (ls : Lease) (p : Nat) : owedFlush mutex ls p ≤ owed ls p := by
  cases mutex <;> first | exact le_refl _ | exact Nat.zero_le _

theorem owed_none (none_ : ls.holders = 0) (p : Nat) : owed ls p = 0 := by
  rw [owed,none_]
  exact if_neg fun both => Nat.zero_ne_one both.1

theorem owed_holder (one : ls.holders = 1) (p : Nat) : owed ls p = (decide (ls.hid = p)).toNat := by
  rw [owed,one]
  by_cases same : ls.hid = p <;> simp [same]

theorem Inv.revoking_holds (inv : Inv s) (busy : (s.procs q).lock = .revoking) : Holds s q := by
  have flushing := inv.flushing q
  have token := inv.token q
  have asked := inv.asked q
  have answered : s.net.countP (acks q) ≤ s.net.countP (asks q) :=
    countP_mono_left fun message _ hit => by cases message <;> first | exact hit | cases hit
  simp only [busy,decide_true,Bool.toNat_true,reduceCtorEq,decide_false,Bool.toNat_false] at flushing asked
  have due := owedFlush_le (s.nodes 0).mutex (manager s) q
  have one := owed_le (manager s) q
  by_contra without
  rw [decide_eq_false without,Bool.toNat_false] at token
  omega

theorem Inv.surrender (inv : Inv s) (done : surrenderLease s q = some s') : Inv s' := by
  obtain ⟨⟨busy,_⟩,branch⟩ := ite_none_right_eq_some.mp done
  cases branch
  have holds := inv.revoking_holds busy
  exact inv.moved (q := q) {
    nodes := rfl
    others := fun p other => procs_other s _ other
    counts := fun p other => counts_other rfl (decide_eq_false other.symm) rfl
    mid := by simpa [send,setProc] using inv.mids q
    routed := routed_send inv.routed (inv.mids q)
    fresh := by simp [send,setProc]
    asked := by simp [send,setProc,asks,busy]
    token := by
      rw [decide_eq_true holds]
      simp [send,setProc,acks,frees,Holds]
      omega
    flushing := by
      simp [send,setProc,flushes,frees,busy]
      omega }

theorem Inv.revoked (inv : Inv s) (done : leaseRevoked s q = some s') : Inv s' := by
  obtain ⟨busy,branch⟩ := ite_none_right_eq_some.mp done
  cases branch
  exact inv.moved (q := q) {
    nodes := rfl
    others := fun p other => procs_other s _ other
    counts := fun _ _ => ⟨rfl,rfl,rfl,rfl⟩
    mid := by simpa [setProc] using inv.mids q
    routed := inv.routed
    fresh := by simp [setProc]
    asked := by simp [setProc,busy]
    token := by simp [setProc,Holds,busy]
    flushing := by simp [setProc,busy] }

theorem erase_counts (listed : message ∈ net) (p : Nat) :
    (net.erase message).countP (asks p) + (asks p message).toNat = net.countP (asks p) ∧
      (net.erase message).countP (acks p) + (acks p message).toNat = net.countP (acks p) ∧
      (net.erase message).countP (frees p) + (frees p message).toNat = net.countP (frees p) ∧
      (net.erase message).countP (flushes p) + (flushes p message).toNat = net.countP (flushes p) :=
  ⟨count_erase_add listed _,count_erase_add listed _,count_erase_add listed _,count_erase_add listed _⟩

theorem routed_erase (message : Message) (old : ∀ m ∈ net, m.Routed) : ∀ m ∈ net.erase message, m.Routed :=
  fun m listed => old m (mem_of_mem_erase listed)

theorem Inv.asking (inv : Inv s) (listed : message ∈ s.net)
    (hit : asks q message = true) : (s.procs q).lock = .acquiring := by
  have counted : 0 < s.net.countP (asks q) := countP_pos_iff.mpr ⟨message,listed,hit⟩
  have asked := inv.asked q
  by_contra other
  rw [decide_eq_false other,Bool.toNat_false] at asked
  omega

theorem Inv.ack (inv : Inv s) (listed : .ack q ∈ s.net) :
    Inv (leaseAcquired { s with net := s.net.erase (.ack q) } q) := by
  have busy := inv.asking listed (decide_eq_true rfl : asks q (.ack q) = true)
  unfold leaseAcquired
  dsimp only
  rw [if_pos busy]
  refine inv.moved (q := q) ?_
  have counts := erase_counts listed
  have without : ¬Holds s q := fun holds => inv.fresh q busy ⟨holds.1,holds.2.1⟩
  obtain ⟨asks_,acks_,frees_,flushes_⟩ := counts q
  simp only [asks,acks,frees,flushes,decide_true,Bool.toNat_true,Bool.toNat_false,add_zero] at asks_ acks_ frees_ flushes_
  exact {
    nodes := rfl
    others := fun p other => procs_other _ _ other
    counts := fun p other => by
      have same := counts p
      simp only [asks,acks,frees,flushes,decide_eq_false other.symm,Bool.toNat_false,add_zero] at same
      exact same
    mid := by simpa [setProc] using inv.mids q
    routed := routed_erase _ inv.routed
    fresh := by simp [setProc]
    asked := by
      simp [setProc,busy]
      omega
    token := by
      rw [decide_eq_false without]
      simp [setProc,Holds]
      omega
    flushing := by simp [setProc,busy,frees_,flushes_] }

theorem Inv.invalid (inv : Inv s) (listed : .invalid q ∈ s.net) :
    Inv (reportLeaseError { s with net := s.net.erase (.invalid q) } q) := by
  have busy := inv.asking listed (decide_eq_true rfl : asks q (.invalid q) = true)
  unfold reportLeaseError
  dsimp only
  rw [if_pos busy]
  have counts := erase_counts listed
  obtain ⟨asks_,acks_,frees_,flushes_⟩ := counts q
  simp only [asks,acks,frees,flushes,decide_true,Bool.toNat_true,Bool.toNat_false,add_zero] at asks_ acks_ frees_ flushes_
  exact inv.moved (q := q) {
    nodes := rfl
    others := fun _ _ => rfl
    counts := fun p other => by
      have same := counts p
      simp only [asks,acks,frees,flushes,decide_eq_false other.symm,Bool.toNat_false,add_zero] at same
      have sent := @counts_other (.lease (s.procs q).lease.mid q) (s.net.erase (.invalid q)) p (decide_eq_false other.symm) rfl rfl
      rw [same.1,same.2.1,same.2.2.1,same.2.2.2] at sent
      exact sent
    mid := inv.mids q
    routed := routed_send (routed_erase _ inv.routed) (inv.mids q)
    fresh := inv.fresh q
    asked := by
      change List.countP _ (_ ++ [_]) + (decide ((s.procs q).lock = .acquiring)).toNat = _
      rw [count_send,asks,decide_eq_true rfl,Bool.toNat_true,asks_]
      rfl
    token := by
      change (decide (Holds s q)).toNat + List.countP _ (_ ++ [_]) + List.countP _ (_ ++ [_]) = _
      rw [count_send,count_send,acks_,frees_]
      rfl
    flushing := by
      change List.countP _ (_ ++ [_]) + (decide ((s.procs q).lock = .revoking)).toNat + List.countP _ (_ ++ [_]) = _
      rw [count_send,count_send,flushes_,frees_]
      rfl }

theorem Inv.flush (inv : Inv s) (listed : .flush q ∈ s.net)
    (done : revokeLease { s with net := s.net.erase (.flush q) } q = some s') : Inv s' := by
  obtain ⟨⟨open_,_⟩,branch⟩ := ite_none_right_eq_some.mp done
  cases branch
  have counts := erase_counts listed
  obtain ⟨asks_,acks_,frees_,flushes_⟩ := counts q
  simp only [asks,acks,frees,flushes,decide_true,Bool.toNat_true,Bool.toNat_false,add_zero] at asks_ acks_ frees_ flushes_
  dsimp only at open_
  exact inv.moved (q := q) {
    nodes := rfl
    others := fun p other => procs_other _ _ other
    counts := fun p other => by
      have same := counts p
      simp only [asks,acks,frees,flushes,decide_eq_false other.symm,Bool.toNat_false,add_zero] at same
      exact same
    mid := by simpa [setProc] using inv.mids q
    routed := routed_erase _ inv.routed
    fresh := by simp [setProc]
    asked := by
      simp [setProc,open_]
      omega
    token := by
      have holds : Holds (setProc { s with net := s.net.erase (.flush q) } q { s.procs q with lock := .revoking }) q ↔ Holds s q := by
        simp [Holds,setProc,open_]
      rw [decide_eq_decide.mpr holds]
      simp [setProc]
      omega
    flushing := by
      simp [setProc,open_]
      omega }

theorem nodes_own (s : State) (n : Nat) (node : KernFS) : (setNode s n node).nodes n = node := update_self ..

theorem nodes_other (s : State) {m n : Nat} (node : KernFS) (other : m ≠ n) : (setNode s n node).nodes m = s.nodes m :=
  update_of_ne other ..

structure Granting (s : State) (q : Nat) : Prop where
  mids : ∀ p, (s.procs p).lease.mid = 0
  elsewhere : ∀ n, n ≠ 0 → (s.nodes n).entered = [] ∧ (s.nodes n).mutex = .free
  routed : ∀ message ∈ s.net, message.Routed
  asked : ∀ p, s.net.countP (asks p) + (s.nodes 0).entered.count p + (decide (q = p)).toNat =
    (decide ((s.procs p).lock = .acquiring)).toNat
  fresh : ∀ p, (s.procs p).lock = .acquiring → ¬((s.procs p).lease.state = .write ∧ (s.procs p).lease.hid = p)
  none_ : (manager s).holders = 0
  token : ∀ p, (decide (Holds s p)).toNat + s.net.countP (acks p) + s.net.countP (frees p) = 0
  flushing : ∀ p, s.net.countP (flushes p) + (decide ((s.procs p).lock = .revoking)).toNat + s.net.countP (frees p) = 0

def granted (migrations : List (Nat × Nat)) (q : Nat) : List Message :=
  migrations.map (fun pair => .migrate pair.1 pair.2) ++ [.ack q]

theorem granted_count (net : List Message) (migrations : List (Nat × Nat)) (q : Nat) (f : Message → Bool)
    (quiet : ∀ n k, f (.migrate n k) = false) : (net ++ granted migrations q).countP f = net.countP f + (f (.ack q)).toNat := by
  rw [granted,← append_assoc,count_send,countP_append]
  have zero : (migrations.map (fun pair => Message.migrate pair.1 pair.2)).countP f = 0 :=
    countP_eq_zero.mpr fun message listed => by
      obtain ⟨pair,_,rfl⟩ := mem_map.mp listed
      rw [quiet]
      decide
  rw [zero,add_zero]

theorem Granting.grant {q : Nat} (granting : Granting s q) (holders : ls.holders = 1) (hid : ls.hid = q)
    {migrations : List (Nat × Nat)} (away : ∀ pair ∈ migrations, pair.1 ≠ 0) :
    Inv (send (setNode s 0 { s.nodes 0 with lease := some ls,mutex := .free }) (granted migrations q)) where
  mids := granting.mids
  elsewhere := fun n other => by
    change ((setNode s 0 _).nodes n).entered = [] ∧ ((setNode s 0 _).nodes n).mutex = .free
    rw [nodes_other s _ other]
    exact granting.elsewhere n other
  routed := fun message listed => by
    rcases mem_append.mp listed with here | here
    · exact granting.routed message here
    · rcases mem_append.mp here with here | here
      · obtain ⟨pair,member,rfl⟩ := mem_map.mp here
        exact away pair member
      · exact mem_singleton.mp here ▸ trivial
  asked := fun p => by
    change (s.net ++ granted migrations q).countP (asks p) + ((setNode s 0 _).nodes 0).entered.count p +
      (serves p ((setNode s 0 _).nodes 0).mutex).toNat = _
    rw [granted_count _ _ _ _ (fun _ _ => rfl)]
    have asked := granting.asked p
    simp only [nodes_own,asks,serves,Bool.toNat_false,add_zero]
    rw [Nat.add_right_comm]
    exact asked
  fresh := granting.fresh
  few := by
    change ((setNode s 0 _).nodes 0).lget.holders ≤ 1
    rw [nodes_own]
    exact le_of_eq holders
  token := fun p => by
    change (decide (Holds s p)).toNat + (s.net ++ granted migrations q).countP (acks p) +
      (s.net ++ granted migrations q).countP (frees p) = owed ls p
    rw [granted_count _ _ _ _ (fun _ _ => rfl),granted_count _ _ _ _ (fun _ _ => rfl),owed_holder holders,hid]
    have token := granting.token p
    simp only [acks,frees,Bool.toNat_false]
    omega
  flushing := fun p => by
    change (s.net ++ granted migrations q).countP (flushes p) + (decide ((s.procs p).lock = .revoking)).toNat +
      (s.net ++ granted migrations q).countP (frees p) = _
    rw [granted_count _ _ _ _ (fun _ _ => rfl),granted_count _ _ _ _ (fun _ _ => rfl)]
    have flushing := granting.flushing p
    simp only [send,nodes_own,owedFlush,frees,flushes,Bool.toNat_false,add_zero]
    exact flushing
  managing := fun requester busy => by
    simp only [send,nodes_own,reduceCtorEq,or_self] at busy
  released := fun requester busy => by
    simp only [send,nodes_own,reduceCtorEq] at busy

theorem Granting.grantLease (granting : Granting s q) (elapsed : Bool) :
    Inv (grantLease cluster s 0 q elapsed) := by
  have none_ := granting.none_
  unfold manager at none_
  unfold Leases.grantLease
  dsimp only
  split
  · have same : ((List.range cluster.nNodes).filter (· ≠ 0)).map (Message.migrate · (cluster.localKernfsId q)) ++ [.ack q] =
        granted (((List.range cluster.nNodes).filter (· ≠ 0)).map fun n => (n,cluster.localKernfsId q)) q := by
      rw [granted,List.map_map]
      rfl
    rw [same]
    refine granting.grant (by simp [Lease.grant,none_]) rfl fun pair listed => ?_
    obtain ⟨n,member,rfl⟩ := mem_map.mp listed
    exact of_decide_eq_true (mem_filter.mp member).2
  · exact @Granting.grant s _ q granting (by simp [Lease.grant,none_]) rfl [] fun _ listed => by cases listed

structure Handled (s s' : State) : Prop where
  procs : s'.procs = s.procs
  elsewhere : ∀ n, n ≠ 0 → (s'.nodes n).entered = (s.nodes n).entered ∧ (s'.nodes n).mutex = (s.nodes n).mutex
  routed : ∀ message ∈ s'.net, message.Routed
  asked : ∀ p, s'.net.countP (asks p) + (s'.nodes 0).entered.count p + (serves p (s'.nodes 0).mutex).toNat =
    s.net.countP (asks p) + (s.nodes 0).entered.count p + (serves p (s.nodes 0).mutex).toNat
  few : (manager s').holders ≤ 1
  token : ∀ p, s'.net.countP (acks p) + s'.net.countP (frees p) +
      owed (manager s) p =
    s.net.countP (acks p) + s.net.countP (frees p) + owed (manager s') p
  flushing : ∀ p, s'.net.countP (flushes p) + s'.net.countP (frees p) +
      owedFlush (s.nodes 0).mutex (manager s) p =
    s.net.countP (flushes p) + s.net.countP (frees p) +
      owedFlush (s'.nodes 0).mutex (manager s') p
  managing : ∀ requester, (s'.nodes 0).mutex = .flushed requester ∨ (s'.nodes 0).mutex = .waiting requester →
    (manager s').mid = 0
  released : ∀ requester, (s'.nodes 0).mutex = .waiting requester → (manager s').holders = 0

theorem Inv.handled (inv : Inv s) (handled : Handled s s') : Inv s' where
  mids := handled.procs ▸ inv.mids
  elsewhere := fun n other => by
    obtain ⟨entered,mutex⟩ := handled.elsewhere n other
    rw [entered,mutex]
    exact inv.elsewhere n other
  routed := handled.routed
  asked := fun p => by
    rw [handled.asked p,handled.procs]
    exact inv.asked p
  fresh := handled.procs ▸ inv.fresh
  few := handled.few
  token := fun p => by
    have before := inv.token p
    have change_ := handled.token p
    have holds : Holds s' p ↔ Holds s p := by rw [Holds,Holds,handled.procs]
    rw [decide_eq_decide.mpr holds]
    omega
  flushing := fun p => by
    have before := inv.flushing p
    have change_ := handled.flushing p
    rw [handled.procs]
    omega
  managing := handled.managing
  released := handled.released

theorem Inv.request (inv : Inv s) (listed : .lease 0 q ∈ s.net) :
    Inv (enterRequest { s with net := s.net.erase (.lease 0 q) } 0 q) := by
  have counts := erase_counts listed
  have quiet : ∀ p, (s.net.erase (.lease 0 q)).countP (acks p) = s.net.countP (acks p) ∧
      (s.net.erase (.lease 0 q)).countP (frees p) = s.net.countP (frees p) ∧
      (s.net.erase (.lease 0 q)).countP (flushes p) = s.net.countP (flushes p) := fun p => (counts p).2
  unfold enterRequest
  dsimp only
  split
  · rename_i moved
    have answer : wrongManager (s.nodes 0).lget.mid q = .invalid q := if_pos (Nat.pos_of_ne_zero moved)
    rw [answer]
    exact inv.handled {
      procs := rfl
      elsewhere := fun n other => by simp only [send,nodes_other _ _ other,and_self]
      routed := routed_send (routed_erase _ inv.routed) trivial
      asked := fun p => by
        have erased := (counts p).1
        simp only [send,setNode,update_self,count_send,asks] at erased ⊢
        omega
      few := inv.few
      token := fun p => by
        obtain ⟨acks_,frees_,_⟩ := quiet p
        simp only [send,setNode,count_send,acks,frees,acks_,frees_]
        rfl
      flushing := fun p => by
        obtain ⟨_,frees_,flushes_⟩ := quiet p
        simp only [send,setNode,count_send,flushes,frees,flushes_,frees_]
        rfl
      managing := inv.managing
      released := inv.released }
  · exact inv.handled {
      procs := rfl
      elsewhere := fun n other => by simp only [nodes_other _ _ other,and_self]
      routed := routed_erase _ inv.routed
      asked := fun p => by
        have erased := (counts p).1
        simp only [setNode,update_self,count_append,count_singleton,asks] at erased ⊢
        by_cases own : q = p <;> simp [own] at erased ⊢ <;> omega
      few := inv.few
      token := fun p => by
        obtain ⟨acks_,frees_,_⟩ := quiet p
        simp only [setNode,acks_,frees_]
        rfl
      flushing := fun p => by
        obtain ⟨_,frees_,flushes_⟩ := quiet p
        simp only [setNode,flushes_,frees_]
        rfl
      managing := inv.managing
      released := inv.released }

theorem Inv.lock {elapsed : Bool} (inv : Inv s)
    (done : lockLease cluster s 0 q elapsed = some s') : Inv s' := by
  obtain ⟨⟨open_,waits⟩,branch⟩ := ite_none_right_eq_some.mp done
  have position : ∀ p, ((s.nodes 0).entered.erase q).count p + (decide (q = p)).toNat = (s.nodes 0).entered.count p := by
    intro p
    rw [(perm_cons_erase waits).count_eq,count_cons]
    by_cases own : q = p <;> simp [own]
  split at branch
  · rename_i moved
    have answer : wrongManager (s.nodes 0).lget.mid q = .invalid q := if_pos (Nat.pos_of_ne_zero moved)
    rw [answer] at branch
    cases branch
    exact inv.handled {
      procs := rfl
      elsewhere := fun n other => by simp only [send,nodes_other _ _ other,and_self]
      routed := routed_send inv.routed trivial
      asked := fun p => by
        have taken := position p
        simp only [send,setNode,update_self,count_send,asks,serves,open_]
        omega
      few := inv.few
      token := fun p => by
        simp only [send,setNode,count_send,acks,frees]
        rfl
      flushing := fun p => by
        simp only [send,setNode,count_send,flushes,frees,update_self,open_]
        rfl
      managing := fun requester busy => by
        simp only [send,setNode,update_self,reduceCtorEq,or_self] at busy
      released := fun requester busy => by
        simp only [send,setNode,update_self,reduceCtorEq] at busy }
  · rename_i home
    have home : (manager s).mid = 0 := not_not.mp home
    split at branch
    · rename_i none_
      cases branch
      refine @Granting.grantLease (setNode s 0 { s.nodes 0 with entered := (s.nodes 0).entered.erase q }) q cluster
        ⟨inv.mids,?_,inv.routed,?_,inv.fresh,none_,?_,?_⟩ elapsed
      · intro n other
        rw [nodes_other _ _ other]
        exact inv.elsewhere n other
      · intro p
        have taken := position p
        have asked := inv.asked p
        rw [open_] at asked
        change _ + _ + 0 = _ at asked
        change s.net.countP (asks p) + ((s.nodes 0).entered.erase q).count p + (decide (q = p)).toNat =
          (decide ((s.procs p).lock = .acquiring)).toNat
        omega
      · intro p
        rw [← owed_none none_ p]
        exact inv.token p
      · intro p
        have flushing := inv.flushing p
        rw [open_] at flushing
        exact flushing
    · rename_i some_
      cases branch
      have one : (manager s).holders = 1 := by
        have few := inv.few
        unfold manager at few ⊢
        omega
      exact inv.handled {
        procs := rfl
        elsewhere := fun n other => by simp only [send,nodes_other _ _ other,and_self]
        routed := routed_send inv.routed trivial
        asked := fun p => by
          have taken := position p
          simp only [send,setNode,update_self,count_send,asks,serves,open_,Bool.toNat_false]
          omega
        few := inv.few
        token := fun p => by
          simp only [send,setNode,count_send,acks,frees]
          rfl
        flushing := fun p => by
          have due : owed (manager s) p = (decide ((s.nodes 0).lget.hid = p)).toNat := owed_holder one p
          simp only [send,setNode,count_send,flushes,frees,update_self,open_,owedFlush]
          change _ = _ + owed (manager s) p
          rw [due]
          simp only [Bool.toNat_false]
          omega
        managing := fun _ _ => home
        released := fun requester busy => by
          simp only [send,setNode,update_self,reduceCtorEq] at busy }

theorem Inv.releasedLease (inv : Inv s) (done : leaseReleased s 0 = some s') : Inv s' := by
  unfold leaseReleased at done
  dsimp only at done
  split at done
  · rename_i q busy
    obtain ⟨none_,branch⟩ := ite_none_right_eq_some.mp done
    cases branch
    have none_ : (manager s).holders = 0 := none_
    exact inv.handled {
      procs := rfl
      elsewhere := fun n other => by simp only [nodes_other _ _ other,and_self]
      routed := inv.routed
      asked := fun p => by
        simp only [setNode,update_self,busy]
        rfl
      few := inv.few
      token := fun p => rfl
      flushing := fun p => by
        simp only [setNode,update_self,busy,owedFlush]
        rw [owed_none none_]
      managing := fun requester _ => inv.managing q (.inl busy)
      released := fun _ _ => none_ }
  · cases done

theorem Inv.checkpoint {elapsed : Bool} (inv : Inv s)
    (done : checkpointReached cluster s 0 elapsed = some s') : Inv s' := by
  unfold checkpointReached at done
  split at done
  · rename_i q busy
    cases done
    have none_ := inv.released q busy
    refine Granting.grantLease ⟨inv.mids,inv.elsewhere,inv.routed,?_,inv.fresh,none_,?_,?_⟩ elapsed
    · intro p
      have asked := inv.asked p
      rw [busy] at asked
      exact asked
    · intro p
      rw [← owed_none none_ p]
      exact inv.token p
    · intro p
      have flushing := inv.flushing p
      rw [busy] at flushing
      exact flushing
  · cases done

theorem Inv.surrendered {version block : Nat} (inv : Inv s) (listed : .surrender 0 q version block ∈ s.net)
    (done : Leases.surrendered { s with net := s.net.erase (.surrender 0 q version block) } 0 q version block = some s') : Inv s' := by
  have counts := erase_counts listed
  -- the surrender answers a flush, so the request that sent it is waiting
  have sent : 0 < s.net.countP (frees q) := countP_pos_iff.mpr ⟨_,listed,decide_eq_true rfl⟩
  have flushing := inv.flushing q
  have due : 0 < owedFlush (s.nodes 0).mutex (manager s) q := by omega
  obtain ⟨requester,busy⟩ : ∃ requester, (s.nodes 0).mutex = .flushed requester := by
    cases busy : (s.nodes 0).mutex with
    | flushed requester => exact ⟨requester,rfl⟩
    | free | waiting _ | leaked =>
      rw [busy] at due
      cases due
  have home := inv.managing requester (.inl busy)
  rw [busy] at due
  have holder : (manager s).holders = 1 ∧ (manager s).hid = q := by
    by_contra other
    rw [owedFlush,owed,if_neg other] at due
    cases due
  unfold Leases.surrendered at done
  dsimp only at done
  rw [if_neg (not_not.mpr home : ¬(s.nodes 0).lget.mid ≠ 0)] at done
  unfold Lease.surrender at done
  have positive : 0 < (s.nodes 0).lget.holders := by
    change 0 < (manager s).holders
    omega
  rw [if_pos positive,map_some] at done
  cases done
  have none_ : (s.nodes 0).lget.holders - 1 = 0 := by
    change (manager s).holders - 1 = 0
    omega
  have own : ∀ p, owed (manager s) p = (decide (q = p)).toNat := fun p => by rw [owed_holder holder.1,holder.2]
  exact inv.handled {
    procs := rfl
    elsewhere := fun n other => by simp only [nodes_other _ _ other,and_self]
    routed := routed_erase _ inv.routed
    asked := fun p => by
      have erased := (counts p).1
      simp only [asks,Bool.toNat_false,add_zero] at erased
      simp only [setNode,update_self,erased]
    few := by
      change (s.nodes 0).lget.holders - 1 ≤ 1
      omega
    token := fun p => by
      obtain ⟨_,acks_,frees_,_⟩ := counts p
      rw [own p,owed_none none_]
      simp only [acks,frees,Bool.toNat_false,add_zero] at acks_ frees_
      simp only [setNode,acks_]
      omega
    flushing := fun p => by
      obtain ⟨_,_,frees_,flushes_⟩ := counts p
      simp only [flushes,frees,Bool.toNat_false,add_zero] at flushes_ frees_
      simp only [setNode,update_self,busy,owedFlush,flushes_]
      rw [own p,owed_none none_]
      omega
    managing := fun _ _ => home
    released := fun requester' waiting => by
      simp only [setNode,update_self,busy,reduceCtorEq] at waiting }

theorem Inv.migrate {n kernfs : Nat} (inv : Inv s) (listed : .migrate n kernfs ∈ s.net) :
    Inv (updateLeaseManager { s with net := s.net.erase (.migrate n kernfs) } n kernfs) := by
  have away : n ≠ 0 := inv.routed _ listed
  have counts := erase_counts listed
  have same : (updateLeaseManager { s with net := s.net.erase (.migrate n kernfs) } n kernfs).nodes 0 = s.nodes 0 :=
    nodes_other _ _ away.symm
  have manager_ : manager (updateLeaseManager { s with net := s.net.erase (.migrate n kernfs) } n kernfs) = manager s := by
    rw [manager,manager,same]
  exact inv.handled {
    procs := rfl
    elsewhere := fun m other => by
      by_cases own : m = n
      · rw [own,updateLeaseManager,nodes_own]
        exact ⟨rfl,rfl⟩
      · rw [updateLeaseManager,nodes_other _ _ own]
        exact ⟨rfl,rfl⟩
    routed := routed_erase _ inv.routed
    asked := fun p => by
      rw [same]
      exact congrArg (· + _ + _) (counts p).1
    few := manager_ ▸ inv.few
    token := fun p => by
      rw [manager_]
      exact congrArg (· + _) (congrArg₂ (· + ·) (counts p).2.1 (counts p).2.2.1)
    flushing := fun p => by
      rw [manager_,same]
      exact congrArg (· + _) (congrArg₂ (· + ·) (counts p).2.2.2 (counts p).2.2.1)
    managing := by
      rw [manager_,same]
      exact inv.managing
    released := by
      rw [manager_,same]
      exact inv.released }

theorem step_inv (lazy : cluster.lazySurrender = true) {action : Action} (inv : Inv s) (alone : action.alone = true)
    (done : step cluster s action = some s') : Inv s' := by
  cases action with
  | acquire p => exact inv.acquire done
  | mark p version block =>
    cases done
    exact inv.mark lazy p version block
  | surrender p => exact inv.surrender done
  | revoked p => exact inv.revoked done
  | deliver message =>
    obtain ⟨listed,received⟩ := ite_none_right_eq_some.mp done
    have routed := inv.routed message listed
    cases message with
    | lease n requester =>
      obtain rfl : n = 0 := routed
      cases received
      exact inv.request listed
    | surrender n requester version block =>
      obtain rfl : n = 0 := routed
      exact inv.surrendered listed received
    | ack p =>
      cases received
      exact inv.ack listed
    | invalid p =>
      cases received
      exact inv.invalid listed
    | flush p => exact inv.flush listed received
    | migrate n kernfs =>
      cases received
      exact inv.migrate listed
  | lock n requester elapsed =>
    by_cases home : n = 0
    · exact inv.lock (home ▸ done)
    · obtain ⟨⟨_,waits⟩,_⟩ := ite_none_right_eq_some.mp done
      rw [(inv.elsewhere n home).1] at waits
      cases waits
  | released n =>
    by_cases home : n = 0
    · exact inv.releasedLease (home ▸ done)
    · simp only [step,leaseReleased,(inv.elsewhere n home).2] at done
      cases done
  | checkpoint n elapsed =>
    by_cases home : n = 0
    · exact inv.checkpoint (home ▸ done)
    · simp only [step,checkpointReached,(inv.elsewhere n home).2] at done
      cases done
  | overtaken p => cases alone

theorem Inv.holder (inv : Inv s) (holds : Holds s p) : (manager s).hid = p := by
  have token := inv.token p
  rw [decide_eq_true holds,Bool.toNat_true] at token
  by_contra other
  rw [owed,if_neg fun both => other both.2] at token
  omega

def built (nNodes : Nat) (localKernfsId : Nat → Nat) : Cluster := ⟨nNodes,localKernfsId,true⟩

theorem run_inv {nNodes : Nat} {localKernfsId : Nat → Nat} {actions : List Action}
    (alone : Guarded (step (built nNodes localKernfsId)) (fun _ action => action.alone = true) initial actions)
    (ran : run (step (built nNodes localKernfsId)) initial actions = some s) : Inv s :=
  invariant_run _ _ Inv (fun _ _ _ inv alone done => step_inv rfl inv alone done) initial s actions initial_inv alone ran

-- Process 4, on node 1, takes the lease over from process 3, whose record is still to be updated.
def handOverRun : List Action :=
  [.acquire 3,.deliver (.lease 0 3),.lock 0 3 false,.deliver (.ack 3),.mark 3 0 616961,
    .acquire 4,.deliver (.lease 0 4),.lock 0 4 true,.deliver (.flush 3),.surrender 3,.deliver (.surrender 0 3 0 616961),
    .released 0,.checkpoint 0 true,.deliver (.ack 4),.deliver (.migrate 1 1)]

-- Node 0 counts a process as the holder exactly while the lease is with it, in an answer or in its surrender. A
-- thread waits exactly while its request is on its way, served or answered.
theorem lease_conserved (nNodes : Nat) (localKernfsId : Nat → Nat) (actions : List Action) (s : State)
    (alone : Guarded (step (built nNodes localKernfsId)) (fun _ action => action.alone = true) initial actions)
    (ran : run (step (built nNodes localKernfsId)) initial actions = some s) (p : Nat) :
    (decide (Holds s p)).toNat + s.net.countP (acks p) + s.net.countP (frees p) = owed (manager s) p ∧
      s.net.countP (asks p) + (s.nodes 0).entered.count p + (serves p (s.nodes 0).mutex).toNat =
        (decide ((s.procs p).lock = .acquiring)).toNat := by
  have inv := run_inv alone ran
  exact ⟨inv.token p,inv.asked p⟩

theorem lease_conserved_migrated : ∃ s, run (step (built 2 (· - 3))) initial handOverRun = some s ∧
    (decide (Holds s 4)).toNat + s.net.countP (acks 4) + s.net.countP (frees 4) = 1 :=
  ⟨_,rfl,(lease_conserved 2 (· - 3) handOverRun _ (by decide) rfl 4).1⟩

end Assise.Leases
