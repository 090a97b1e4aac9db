import Assise.Layout

-- Which log a LibFS process gets. The seed KernFS hands out ids as processes come and go; each side
-- computes the bounds of the log from the id.
namespace Assise.Registration

open Layout Bitmap Lib.Runs Option Function
open Mkfs (gNMaxLibfs)
open LogRing (gLogSize)

-- `struct peer_id` of a LibFS process. It is zeroed when the process connects; `registered` tells
-- whether it got a log since then.
structure Peer where
  id : Nat
  registered : Bool
deriving DecidableEq, Repr

structure State where
  peerBitmap : Nat → Bool
  peers : Nat → Option Peer

inductive Action where
  | connect (pid : Nat)
  | bootstrap (pid : Nat)
  | disconnect (pid : Nat)
deriving DecidableEq, Repr

-- `bitmap_clear` has the loop of `bitmap_set`, with `&= ~mask` for `|= mask`.
def bitmapClear (bits : Nat → Bool) (start len : Nat) : Nat → Bool := fun i => !bitmapSet (fun i => !bits i) start len i

def initRpc (gNNodes : Nat) : Option (Nat → Bool) :=
  (List.range gNNodes).foldlM (fun bits i => (registerPeerLog gNNodes bits (some i)).map Prod.snd) fun _ => false

-- The first socket of a process makes the peer, the `bootstrap` message registers its log, and the last socket
-- unregisters it, whether it was registered or not.
def step (gNNodes : Nat) (s : State) : Action → Option State
  | .connect pid => if s.peers pid = none then some {s with peers := update s.peers pid (some ⟨0,false⟩)} else none
  | .bootstrap pid =>
    if (s.peers pid).map Peer.registered = some false then
      (registerPeerLog gNNodes s.peerBitmap none).map fun (id,bits) => ⟨bits,update s.peers pid (some ⟨id,true⟩)⟩
    else none
  | .disconnect pid => (s.peers pid).map fun peer => ⟨bitmapClear s.peerBitmap peer.id 1,update s.peers pid none⟩

def State.logId (s : State) (pid : Nat) : Option Nat := (s.peers pid).bind fun peer => if peer.registered then some peer.id else none

structure Ring where
  first : Nat
  stop : Nat
deriving DecidableEq, Repr

def Ring.last (r : Ring) : Nat := r.stop - 1

def kernfsRing (sb : Placement) (idx : Nat) : Ring :=
  let startBlk := sb.logStart + idx * gLogSize + 1
  ⟨startBlk,startBlk + gLogSize⟩

def libfsRing (sb : Placement) (gSelfId : Nat) : Ring :=
  let logSbBlk := sb.logStart + gSelfId * gLogSize
  ⟨logSbBlk + 1,logSbBlk + gLogSize⟩

def logRegion (sb : Placement) (id : Nat) : Region := ⟨sb.logStart + id * gLogSize,gLogSize⟩

structure Separate (sb : Placement) (s : State) : Prop where
  distinct : ∀ p q id, s.logId p = some id → s.logId q = some id → p = q
  inside : ∀ p id, s.logId p = some id → sb.log.start ≤ (logRegion sb id).start ∧ (logRegion sb id).stop ≤ sb.log.stop
  apart : ∀ p q i j, p ≠ q → s.logId p = some i → s.logId q = some j → (logRegion sb i).Apart (logRegion sb j)
  first : ∀ p id, s.logId p = some id → (kernfsRing sb id).first = (libfsRing sb id).first

def Assigned (sb : Placement) (s : State) : Prop :=
  Separate sb s ∧ ∀ p id, s.logId p = some id → (kernfsRing sb id).last = (libfsRing sb id).last

def Bootstrapped (s : State) : Action → Prop
  | .disconnect pid => s.logId pid ≠ none
  | .connect _ | .bootstrap _ => True

structure Tracked (gNNodes : Nat) (s : State) : Prop where
  bits : ∀ b, s.peerBitmap b = true ↔ b < gNNodes ∨ ∃ p, s.logId p = some b
  above : ∀ p id, s.logId p = some id → gNNodes ≤ id ∧ id < (gNMaxLibfs + gNNodes) % 2 ^ 32
  distinct : ∀ p q id, s.logId p = some id → s.logId q = some id → p = q

variable {id : Nat}

theorem bitmapSet_bit (bits : Nat → Bool) (small : id < 2 ^ 32) (b : Nat) : bitmapSet bits id 1 b = true ↔ bits b = true ∨ b = id := by
  rw [bitmapSet_range _ _ (by decide),Nat.mod_eq_of_lt small,withRange_bit]
  exact or_congr_right (by omega)

theorem bitmapClear_bit (bits : Nat → Bool) (small : id < 2 ^ 32) (b : Nat) :
    bitmapClear bits id 1 b = true ↔ bits b = true ∧ b ≠ id := by
  rw [bitmapClear,Bool.not_eq_true',←Bool.not_eq_true,bitmapSet_bit _ small,not_or,Bool.not_eq_true,Bool.not_eq_false']

theorem registerPeerLog_free {gNNodes : Nat} {bits after : Nat → Bool} (accepted : registerPeerLog gNNodes bits none = some (id,after)) :
    bits id = false ∧ id < (gNMaxLibfs + gNNodes) % 2 ^ 32 ∧ ∀ b, after b = true ↔ bits b = true ∨ b = id := by
  have bound := registerPeerLog_id accepted
  unfold registerPeerLog at accepted
  dsimp only [getD_none] at accepted
  split at accepted
  · cases accepted
  · cases accepted
    exact ⟨((findFirstZeroBit_spec bits (gNMaxLibfs + gNNodes)).zero (lt_of_lt_of_le bound (Nat.mod_le ..))).2,bound,
      bitmapSet_bit bits (lt_trans bound (Nat.mod_lt _ (by decide)))⟩

theorem initRpc_bits {gNNodes : Nat} {bits : Nat → Bool} (started : initRpc gNNodes = some bits) :
    bits = fun b => decide (b < gNNodes) := by
  have upTo : ∀ count bits, (List.range count).foldlM
      (fun bits i => (registerPeerLog gNNodes bits (some i)).map Prod.snd) (fun _ => false) = some bits →
      bits = fun b => decide (b < count) := by
    intro count
    induction count with
    | zero =>
      intro bits done
      cases done
      simp
    | succ count ih =>
      intro bits done
      rw [List.range_succ,List.foldlM_append] at done
      obtain ⟨middle,first,last⟩ := bind_eq_some_iff.mp done
      cases ih middle first
      rw [List.foldlM_cons] at last
      obtain ⟨_,registered,same⟩ := bind_eq_some_iff.mp last
      cases same
      obtain ⟨⟨_,_⟩,accepted,rfl⟩ := map_eq_some_iff.mp registered
      have bound := registerPeerLog_id accepted
      obtain ⟨_,same⟩ := ite_none_left_eq_some.mp accepted
      cases same
      funext b
      rw [Bool.eq_iff_iff,bitmapSet_bit _ (lt_trans bound (Nat.mod_lt _ (by decide))),decide_eq_true_iff,decide_eq_true_iff]
      exact Nat.lt_succ_iff_lt_or_eq.symm
  exact upTo gNNodes bits started

section Steps
variable {gNNodes : Nat} {s next : State}

theorem logId_set (s : State) (bits : Nat → Bool) (pid : Nat) (peer : Option Peer) :
    State.logId ⟨bits,update s.peers pid peer⟩ =
      update s.logId pid (peer.bind fun peer => if peer.registered then some peer.id else none) := by
  funext p
  unfold State.logId
  dsimp only
  by_cases same : p = pid
  · subst same
    rw [update_self,update_self]
  · rw [update_of_ne same,update_of_ne same]

theorem Tracked.add {pid : Nat} (tracked : Tracked gNNodes s) (new : s.logId pid = none) (free : s.peerBitmap id = false)
    (bound : id < (gNMaxLibfs + gNNodes) % 2 ^ 32) (logs : next.logId = update s.logId pid (some id))
    (bits : ∀ b, next.peerBitmap b = true ↔ s.peerBitmap b = true ∨ b = id) : Tracked gNNodes next := by
  have unused : ¬ (id < gNNodes ∨ ∃ p, s.logId p = some id) := fun used => by
    rw [(tracked.bits id).mpr used] at free
    cases free
  have known : ∀ p i, next.logId p = some i ↔ p = pid ∧ i = id ∨ s.logId p = some i := by
    intro p i
    rw [logs,update_apply]
    by_cases here : p = pid
    · subst here
      rw [if_pos rfl,new,Option.some.injEq]
      simp [eq_comm]
    · simp [here]
  refine ⟨fun b => ?_,fun p i log => ?_,fun p q i left right => ?_⟩
  · simp only [bits,tracked.bits,known,exists_or,exists_eq_left]
    tauto
  · rcases (known p i).mp log with ⟨_,rfl⟩ | old
    · exact ⟨Nat.le_of_not_lt fun low => unused (.inl low),bound⟩
    · exact tracked.above p i old
  · rcases (known p i).mp left with ⟨rfl,rfl⟩ | old <;> rcases (known q i).mp right with ⟨rfl,same⟩ | old'
    · rfl
    · exact absurd (.inr ⟨q,old'⟩) unused
    · exact absurd (.inr ⟨p,same ▸ old⟩) unused
    · exact tracked.distinct p q i old old'

theorem Tracked.remove {pid : Nat} (tracked : Tracked gNNodes s) (own : s.logId pid = some id)
    (logs : next.logId = update s.logId pid none)
    (bits : ∀ b, next.peerBitmap b = true ↔ s.peerBitmap b = true ∧ b ≠ id) : Tracked gNNodes next := by
  have known : ∀ p i, next.logId p = some i ↔ p ≠ pid ∧ s.logId p = some i := by
    intro p i
    rw [logs,update_apply]
    by_cases here : p = pid
    · simp [here]
    · simp [here]
  obtain ⟨low,_⟩ := tracked.above pid id own
  refine ⟨fun b => ?_,fun p i log => ?_,fun p q i left right => ?_⟩
  · simp only [bits,tracked.bits,known]
    constructor
    · rintro ⟨below | ⟨p,log⟩,other⟩
      · exact .inl below
      · refine .inr ⟨p,fun here => other ?_,log⟩
        rw [here,own] at log
        exact (Option.some.inj log).symm
    · rintro (below | ⟨p,there,log⟩)
      · exact ⟨.inl below,by omega⟩
      · exact ⟨.inr ⟨p,log⟩,fun same => there (tracked.distinct p pid id (same ▸ log) own)⟩
  · exact tracked.above p i ((known p i).mp log).2
  · exact tracked.distinct p q i ((known p i).mp left).2 ((known q i).mp right).2

theorem step_tracked {action : Action} (tracked : Tracked gNNodes s) (met : Bootstrapped s action)
    (done : step gNNodes s action = some next) : Tracked gNNodes next := by
  cases action with
  | connect pid =>
    simp only [step,ite_none_right_eq_some,Option.some.injEq] at done
    obtain ⟨new,rfl⟩ := done
    have logs := logId_set s s.peerBitmap pid (some ⟨0,false⟩)
    have none_ : s.logId pid = none := by
      unfold State.logId
      rw [new]
      rfl
    have same : State.logId ⟨s.peerBitmap,update s.peers pid (some ⟨0,false⟩)⟩ = s.logId := by
      rw [logs]
      exact (update_eq_self_iff.mpr none_.symm)
    exact ⟨fun b => by rw [same]; exact tracked.bits b,fun p i => by rw [same]; exact tracked.above p i,
      fun p q i => by rw [same]; exact tracked.distinct p q i⟩
  | bootstrap pid =>
    simp only [step,ite_none_right_eq_some,map_eq_some_iff] at done
    obtain ⟨waiting,⟨id,bits⟩,accepted,rfl⟩ := done
    obtain ⟨free,bound,after⟩ := registerPeerLog_free accepted
    have new : s.logId pid = none := by
      obtain ⟨peer,found,open_⟩ := waiting
      unfold State.logId
      rw [found,bind_some,open_]
      rfl
    exact tracked.add new free bound (logId_set s bits pid _) after
  | disconnect pid =>
    simp only [step,map_eq_some_iff] at done
    obtain ⟨peer,found,rfl⟩ := done
    obtain ⟨id,own⟩ := ne_none_iff_exists'.mp met
    have same : peer.id = id := by
      unfold State.logId at own
      rw [found,bind_some] at own
      split at own
      · exact Option.some.inj own
      · cases own
    subst same
    have small := lt_trans (tracked.above pid _ own).2 (Nat.mod_lt _ (by decide))
    exact tracked.remove own (logId_set s _ pid none) (bitmapClear_bit s.peerBitmap small)

end Steps

def ready (gNNodes : Nat) : Option State := (initRpc gNNodes).map fun bits => ⟨bits,fun _ => none⟩

theorem ready_tracked {gNNodes : Nat} {s : State} (started : ready gNNodes = some s) : Tracked gNNodes s := by
  obtain ⟨bits,made,rfl⟩ := map_eq_some_iff.mp started
  cases initRpc_bits made
  refine ⟨fun b => ?_,fun _ _ log => ?_,fun _ _ _ log => ?_⟩
  · simp [State.logId]
  · cases log
  · cases log

theorem Tracked.separate {gNNodes devSize : Nat} {sb : Placement} {s : State} (accepted : placement gNNodes devSize = some sb)
    (tracked : Tracked gNNodes s) : Separate sb s := by
  obtain ⟨chained,_⟩ := placement_chained accepted
  have area := chained.nlog
  have size : gLogSize = 32768 := rfl
  have most : gNMaxLibfs = 4 := rfl
  unfold logSizeBlks at area
  rw [size,most] at area
  refine ⟨tracked.distinct,fun p id log => ?_,fun p q i j other left right b held held' => ?_,fun _ _ _ => rfl⟩
  · obtain ⟨_,bound⟩ := tracked.above p id log
    simp only [Region.stop,Placement.log,logRegion,area,size]
    omega
  · have differ : i ≠ j := fun same => other (tracked.distinct p q i left (same ▸ right))
    simp only [Region.Holds,Region.stop,logRegion,size] at held held'
    omega

theorem log_regions_assigned (gNNodes devSize : Nat) (sb : Placement) (accepted : placement gNNodes devSize = some sb)
    (start s : State) (started : ready gNNodes = some start) (actions : List Action)
    (guarded : Guarded (step gNNodes) Bootstrapped start actions) (reached : run (step gNNodes) start actions = some s) :
    Separate sb s ∧ (Assigned sb s ↔ ∀ p, s.logId p = none) := by
  have tracked : Tracked gNNodes s := invariant_run (step gNNodes) Bootstrapped (Tracked gNNodes)
    (fun _ _ _ known met done => step_tracked known met done) start s actions (ready_tracked started) guarded reached
  have separate := tracked.separate accepted
  have size : gLogSize = 32768 := rfl
  refine ⟨separate,fun assigned p => ?_,fun nobody => ⟨separate,fun p id log => ?_⟩⟩
  · refine eq_none_iff_forall_ne_some.mpr fun id log => ?_
    have same := assigned.2 p id log
    simp only [Ring.last,kernfsRing,libfsRing,size] at same
    omega
  · rw [nobody p] at log
    cases log

instance (s : State) (action : Action) : Decidable (Bootstrapped s action) := by
  cases action <;> (unfold Bootstrapped; infer_instance)

def comingAndGoing : List Action :=
  [.connect 11,.bootstrap 11,.connect 12,.bootstrap 12,.disconnect 11,.connect 13,.bootstrap 13]

theorem log_regions_assigned_reused : ∃ sb start s, placement 1 3221225472 = some sb ∧ ready 1 = some start ∧
    run (step 1) start comingAndGoing = some s ∧ s.logId 12 = some 2 ∧ s.logId 13 = some 1 ∧ Separate sb s := by
  obtain ⟨start,started,guarded,s,reached,second,third⟩ : ∃ start, ready 1 = some start ∧
      Guarded (step 1) Bootstrapped start comingAndGoing ∧ ∃ s, run (step 1) start comingAndGoing = some s ∧
        s.logId 12 = some 2 ∧ s.logId 13 = some 1 := by decide +kernel
  exact ⟨_,start,s,rfl,started,reached,second,third,
    (log_regions_assigned 1 3221225472 _ rfl start s started comingAndGoing guarded reached).1⟩

-- The last block of the log is 682495 for the process; for KernFS it is 682496, the superblock of the next log.
theorem kernfs_ring_takes_next_superblock : ∃ sb start s, placement 1 3221225472 = some sb ∧ ready 1 = some start ∧
    run (step 1) start [.connect 11,.bootstrap 11] = some s ∧ s.logId 11 = some 1 ∧ (libfsRing sb 1).last = 682495 ∧
    (kernfsRing sb 1).last = 682496 ∧ (logRegion sb 2).start = 682496 := by
  obtain ⟨start,s,started,reached,id⟩ : ∃ start s, ready 1 = some start ∧
      run (step 1) start [.connect 11,.bootstrap 11] = some s ∧ s.logId 11 = some 1 := by decide +kernel
  exact ⟨_,start,s,rfl,started,reached,id,by decide,by decide,by decide⟩

end Assise.Registration
