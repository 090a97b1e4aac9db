import Mathlib.Data.List.Nodup
import Mathlib.Data.List.Perm.Subperm
import Assise.LogRingSafety

-- The log of a LibFS process whose threads commit at the same time. `log_alloc` hands out blocks under a lock, in log
-- order; what follows is not ordered between threads.
namespace Assise.ConcurrentLog
open LogRing Lib.Runs Lib.Segments List Option Function

-- How far a commit has come: in the retry loop of `log_alloc`, returned from it, data blocks
-- written, header written, added to the unsynchronised counters, added to `n_digest`.
inductive Stage where
  | reserved
  | returned
  | written
  | headed
  | unsynced
  | counted
deriving DecidableEq, Repr

def Stage.committed : Stage → Bool
  | .headed | .unsynced | .counted => true
  | .reserved | .returned | .written => false

structure Alloc where
  serial : Nat
  tx : Tx
deriving DecidableEq, Repr

-- `ring` has the fields of the log without its thread and its transactions. `live` lists what is allocated and not
-- digested, `digested` what was digested, in order.
structure State where
  ring : LogRing.State
  nUnsync : Nat
  nUnsyncBlk : Nat
  nextSerial : Nat
  live : List Alloc
  stage : Nat → Stage
  digested : List Nat

def initLog (logSbBlk : Nat) (log : LogArea) : State where
  ring := LogRing.initLog logSbBlk log
  nUnsync := 0
  nUnsyncBlk := 0
  nextSerial := 0
  live := []
  stage := fun _ => .reserved
  digested := []

def atStage (s : State) (serial : Nat) (stage : Stage) : Option Alloc :=
  (s.live.find? (·.serial = serial)).filter fun _ => s.stage serial = stage

def setStage (s : State) (serial : Nat) (stage : Stage) : State :=
  { s with stage := update s.stage serial stage }

-- The steps of the commits in progress, each run by a thread of its own, and those of the
-- digests. A request waits for no commit.
inductive Action where
  | request
  | reserve (nrBlocks : Nat)
  | ret (serial : Nat)
  | writeData (serial : Nat) (contents : LogArea)
  | writeHeader (serial : Nat)
  | addUnsync (serial : Nat)
  | count (serial : Nat)
  | kernfs (contents : LogArea)
  | respond

def covers (s : State) (answer : DigestAnswer) (alloc : Alloc) : Bool :=
  decide (alloc.tx.first ∈ answer.visited) && (s.stage alloc.serial).committed

def step (s : State) : Action → Option State
  | .request => some { s with ring := makeDigestRequestAsync s.ring }
  | .reserve nrBlocks =>
    -- mlfs_assert on the tail of an unwrapped log
    if s.ring.digest = .idle ∧ s.ring.availVersion = s.ring.startVersion ∧ s.ring.nextAvailHeader < s.ring.startBlk then none
    else
      let ring := wrapTail nrBlocks s.ring
      some { s with
        ring := { ring with nextAvailHeader := ring.nextAvailHeader + nrBlocks }
        nextSerial := s.nextSerial + 1
        live := s.live ++ [⟨s.nextSerial,⟨ring.nextAvailHeader,nrBlocks⟩⟩]
        stage := update s.stage s.nextSerial .reserved }
  | .ret serial =>
    if tailPastHead s.ring then none
    else (atStage s serial .reserved).map fun _ => setStage s serial .returned
  | .writeData serial contents =>
    (atStage s serial .returned).map fun alloc =>
      { setStage s serial .written with ring := { s.ring with
        log := fun b => if alloc.tx.first < b ∧ b < alloc.tx.stop then contents b else s.ring.log b } }
  | .writeHeader serial =>
    (atStage s serial .written).map fun alloc =>
      { setStage s serial .headed with ring := { s.ring with
        log := fun b => if b = alloc.tx.first then ⟨alloc.tx.count % 2 ^ 16,lhCommitMagic⟩ else s.ring.log b } }
  | .addUnsync serial =>
    (atStage s serial .headed).map fun alloc =>
      { setStage s serial .unsynced with nUnsync := s.nUnsync + 1,nUnsyncBlk := s.nUnsyncBlk + alloc.tx.count }
  | .count serial =>
    (atStage s serial .unsynced).map fun _ =>
      { setStage s serial .counted with ring := { s.ring with nDigest := (s.ring.nDigest + 1) % 2 ^ 32 } }
  | .kernfs contents =>
    match s.ring.digest with
    | .sent request =>
      (digestLogs contents request.startBlkno request.endBlkno request.nHdrs s.ring.log request.startDigest).map
        fun (area,answer) => { s with ring := { s.ring with log := area,digest := .done answer } }
    | _ => none
  | .respond =>
    match s.ring.digest with
    | .done answer =>
      (handleDigestResponse answer s.ring).map fun ring => { s with
        ring := ring
        live := s.live.filter fun alloc => !covers s answer alloc
        digested := s.digested ++ (s.live.filter (covers s answer)).map Alloc.serial }
    | _ => none

def Linked (begin last : Nat) : Nat → List Tx → Prop
  | _,[] => True
  | a,tx :: rest => tx.first = a ∧ Linked begin last (nextLoghdrBlknr a tx.count begin last) rest

instance decidableLinked (begin last : Nat) : (a : Nat) → (txs : List Tx) → Decidable (Linked begin last a txs)
  | _,[] => .isTrue trivial
  | a,tx :: rest =>
    have := decidableLinked begin last (nextLoghdrBlknr a tx.count begin last) rest
    inferInstanceAs (Decidable (_ ∧ _))

def requested (s : State) : List Alloc := s.live.take s.ring.nDigest

-- A request finds the transactions it counts at the front of the log, one leading to the next and every one counted:
-- no older commit is still on its way.
def RequestInOrder (s : State) : Prop :=
  s.ring.digest = .idle → Linked s.ring.begin s.ring.logEnd (moveHead s.ring).startBlk ((requested s).map Alloc.tx) ∧
    ∀ alloc ∈ requested s, s.stage alloc.serial = .counted

def ReturnFree (s : State) (serial : Nat) : Prop :=
  ∀ alloc ∈ s.live, alloc.serial = serial → ∀ other ∈ s.live, other.serial ≠ serial → s.stage other.serial ≠ .reserved →
    other.tx.stop ≤ alloc.tx.first ∨ alloc.tx.stop ≤ other.tx.first

def InOrder (s : State) : Action → Prop
  | .request => RequestInOrder s
  | .reserve nrBlocks => 0 < nrBlocks ∧ nrBlocks < gLogSize
  | .ret serial => ReturnFree s serial
  | .writeData .. | .writeHeader _ | .addUnsync _ | .count _ | .kernfs _ | .respond => True

instance (s : State) (action : Action) : Decidable (InOrder s action) := by
  cases action <;> (simp only [InOrder,RequestInOrder,ReturnFree]; infer_instance)

variable {alloc : Alloc} {s s' : State} {serial : Nat} {ring' ring : LogRing.State} {new : Stage}

theorem atStage_some {stage : Stage} (found : atStage s serial stage = some alloc) :
    alloc ∈ s.live ∧ alloc.serial = serial ∧ s.stage serial = stage := by
  obtain ⟨hit,at_⟩ := filter_eq_some_iff.mp found
  exact ⟨mem_of_find?_eq_some hit,of_decide_eq_true (find?_some hit :),of_decide_eq_true at_⟩

theorem linked_follows {begin last a : Nat} {txs : List Tx} (linked : Linked begin last a txs) :
    ∃ b rotated, Follows begin last a txs b rotated := by
  induction txs generalizing a with
  | nil => exact ⟨a,false,rfl,rfl⟩
  | cons tx rest ih =>
    obtain ⟨first,later⟩ := linked
    obtain ⟨b,rotated,follows⟩ := ih later
    exact ⟨b,_,first,rotated,follows,rfl⟩

def Pending (s : State) : Prop :=
  match s.ring.digest with
  | .idle => True
  | .sent request => ∃ covered rest next rotated, s.live = covered ++ rest ∧
      (∀ alloc ∈ covered, s.stage alloc.serial = .counted) ∧ request.nHdrs = covered.length ∧
      s.ring.nDigestReq = covered.length ∧
      Follows request.startBlkno request.endBlkno request.startDigest (covered.map Alloc.tx) next rotated
  | .done answer => ∃ covered rest, s.live = covered ++ rest ∧ (∀ alloc ∈ covered, s.stage alloc.serial = .counted) ∧
      answer.nDigested = covered.length ∧ s.ring.nDigestReq = covered.length ∧
      answer.visited = covered.map fun alloc => alloc.tx.first

structure Inv (s : State) : Prop where
  serials : s.digested ++ s.live.map Alloc.serial = List.range s.nextSerial
  sizes : ∀ alloc ∈ s.live, 0 < alloc.tx.count ∧ alloc.tx.count < gLogSize
  area : ∀ alloc ∈ s.live, s.ring.begin ≤ alloc.tx.first ∧ alloc.tx.first < s.ring.size
  tail : s.ring.begin ≤ s.ring.nextAvailHeader
  apart : ∀ one ∈ s.live, ∀ other ∈ s.live, one.serial ≠ other.serial → s.stage one.serial ≠ .reserved →
    s.stage other.serial ≠ .reserved → one.tx.Apart other.tx
  headers : ∀ alloc ∈ s.live, (s.stage alloc.serial).committed = true →
    s.ring.log alloc.tx.first = ⟨alloc.tx.count,lhCommitMagic⟩
  count : s.ring.nDigest = s.live.countP fun alloc => s.stage alloc.serial = .counted
  pending : Pending s

theorem init_inv (logSbBlk : Nat) (log : LogArea) : Inv (initLog logSbBlk log) where
  serials := rfl
  sizes := by intro alloc listed; cases listed
  area := by intro alloc listed; cases listed
  tail := le_refl _
  apart := by intro one listed; cases listed
  headers := by intro alloc listed; cases listed
  count := rfl
  pending := trivial

theorem Inv.nodup (inv : Inv s) : (s.live.map Alloc.serial).Nodup := by
  have all : (s.digested ++ s.live.map Alloc.serial).Nodup := inv.serials ▸ nodup_range
  exact (nodup_append.mp all).2.1

theorem Inv.old (inv : Inv s) : ∀ alloc ∈ s.live, alloc.serial < s.nextSerial := by
  intro alloc listed
  have known : alloc.serial ∈ s.digested ++ s.live.map Alloc.serial :=
    mem_append_right _ (mem_map_of_mem listed)
  rw [inv.serials] at known
  exact mem_range.mp known

theorem Inv.unique (inv : Inv s) {one other : Alloc} (here : one ∈ s.live) (there : other ∈ s.live)
    (same : one.serial = other.serial) : one = other :=
  inj_on_of_nodup_map inv.nodup here there same

theorem apart_first {one other : Tx} (apart : one.Apart other) (left : 0 < one.count) (right : 0 < other.count) :
    one.first ≠ other.first := by
  unfold Segment.Apart Segment.stop at apart
  omega

theorem Inv.few (inv : Inv s) : s.ring.nDigest ≤ gLogSize := by
  have counted : ∀ alloc ∈ s.live.filter (fun alloc => s.stage alloc.serial = .counted), alloc ∈ s.live ∧
      s.stage alloc.serial ≠ .reserved := by
    intro alloc listed
    obtain ⟨live,stage⟩ := mem_filter.mp listed
    exact ⟨live,by rw [of_decide_eq_true stage]; decide⟩
  have firsts : ((s.live.filter fun alloc => s.stage alloc.serial = .counted).map fun alloc => alloc.tx.first).Nodup := by
    refine List.Nodup.map_on ?_ (inv.nodup.of_map.filter _)
    intro one here other there same
    obtain ⟨live,stage⟩ := counted one here
    obtain ⟨live',stage'⟩ := counted other there
    by_contra different
    refine apart_first (inv.apart one live other live' ?_ stage stage') (inv.sizes one live).1 (inv.sizes other live').1 same
    exact fun serials => different (inv.unique live live' serials)
  have inLog : ((s.live.filter fun alloc => s.stage alloc.serial = .counted).map fun alloc => alloc.tx.first) ⊆
      List.range' s.ring.begin gLogSize := by
    intro first listed
    obtain ⟨alloc,here,rfl⟩ := mem_map.mp listed
    obtain ⟨low,high⟩ := inv.area alloc (counted alloc here).1
    rw [mem_range'_1]
    simp only [LogRing.State.begin,LogRing.State.size] at *
    omega
  have bound := (firsts.subperm inLog).length_le
  rw [length_map,length_range',← countP_eq_length_filter] at bound
  rw [inv.count]
  exact bound

structure SameRing (ring ring' : LogRing.State) : Prop where
  place : ring'.logSbBlk = ring.logSbBlk
  tail : ring'.nextAvailHeader = ring.nextAvailHeader
  digest : ring'.digest = ring.digest
  asked : ring'.nDigestReq = ring.nDigestReq

theorem SameRing.begin (same : SameRing ring ring') : ring'.begin = ring.begin := by
  unfold LogRing.State.begin
  rw [same.place]

theorem SameRing.size (same : SameRing ring ring') : ring'.size = ring.size := by
  unfold LogRing.State.size
  rw [same.place]

theorem Pending.congr (pending : Pending s) (digest : s'.ring.digest = s.ring.digest)
    (asked : s'.ring.nDigestReq = s.ring.nDigestReq) (more : List Alloc) (live : s'.live = s.live ++ more)
    (stage : ∀ alloc ∈ s.live, s.stage alloc.serial = .counted → s'.stage alloc.serial = .counted) : Pending s' := by
  unfold Pending at *
  rw [digest,asked]
  cases state : s.ring.digest with
  | idle => trivial
  | sent request =>
    rw [state] at pending
    obtain ⟨covered,rest,next,rotated,split,counted,hdrs,asked,follows⟩ := pending
    refine ⟨covered,rest ++ more,next,rotated,by rw [live,split,append_assoc],fun alloc listed => ?_,hdrs,asked,follows⟩
    exact stage alloc (by rw [split]; exact mem_append_left _ listed) (counted alloc listed)
  | done answer =>
    rw [state] at pending
    obtain ⟨covered,rest,split,counted,digested,asked,visited⟩ := pending
    refine ⟨covered,rest ++ more,by rw [live,split,append_assoc],fun alloc listed => ?_,digested,asked,visited⟩
    exact stage alloc (by rw [split]; exact mem_append_left _ listed) (counted alloc listed)

theorem countP_update {stage : Nat → Stage} {live : List Alloc}
    (nodup : (live.map Alloc.serial).Nodup) (listed : serial ∈ live.map Alloc.serial) (old : stage serial ≠ .counted) :
    (live.countP fun alloc => update stage serial new alloc.serial = .counted) =
      (live.countP fun alloc => stage alloc.serial = .counted) + if new = .counted then 1 else 0 := by
  induction live with
  | nil => cases listed
  | cons alloc rest ih =>
    obtain ⟨fresh,nodup'⟩ := nodup_cons.mp nodup
    by_cases here : alloc.serial = serial
    · have others : ∀ other ∈ rest, (decide (update stage serial new other.serial = .counted)) =
          decide (stage other.serial = .counted) := by
        intro other member
        rw [update_of_ne]
        rintro same
        exact fresh (here ▸ same ▸ mem_map_of_mem member)
      rw [countP_cons,countP_cons,here,update_self,
        countP_congr fun other member => by rw [others other member]]
      simp [old]
    · have inRest : serial ∈ rest.map Alloc.serial := by
        rcases mem_cons.mp listed with same | later
        · exact absurd same.symm here
        · exact later
      rw [countP_cons,countP_cons,ih nodup' inRest,update_of_ne here,Nat.add_right_comm]

section
variable (inv : Inv s)
include inv

theorem Inv.moveOn (here : alloc ∈ s.live)
    (old : s.stage alloc.serial ≠ .counted) (free : s.stage alloc.serial = .reserved → ReturnFree s alloc.serial)
    (stage : s'.stage = update s.stage alloc.serial new) (live : s'.live = s.live)
    (digested : s'.digested = s.digested) (serial : s'.nextSerial = s.nextSerial) (same : SameRing s.ring s'.ring)
    (headers : ∀ other ∈ s.live, (s'.stage other.serial).committed = true →
      s'.ring.log other.tx.first = ⟨other.tx.count,lhCommitMagic⟩)
    (count : s'.ring.nDigest = s.ring.nDigest + if new = .counted then 1 else 0) : Inv s' where
  serials := by rw [digested,live,serial]; exact inv.serials
  sizes := by rw [live]; exact inv.sizes
  area := by rw [live,same.begin,same.size]; exact inv.area
  tail := by rw [same.begin,same.tail]; exact inv.tail
  apart := by
    rw [live,stage]
    -- the moved commit was apart already, or it returns now to free blocks
    have moved : ∀ other ∈ s.live, other.serial ≠ alloc.serial → s.stage other.serial ≠ .reserved → alloc.tx.Apart other.tx := by
      intro other there different late
      by_cases first : s.stage alloc.serial = .reserved
      · exact (free first alloc here rfl other there different late).symm
      · exact inv.apart alloc here other there different.symm first late
    intro one there other there' different late late'
    by_cases left : one.serial = alloc.serial
    · have right : other.serial ≠ alloc.serial := fun right => different (left.trans right.symm)
      rw [update_of_ne right] at late'
      rw [inv.unique there here left]
      exact moved other there' right late'
    · rw [update_of_ne left] at late
      by_cases right : other.serial = alloc.serial
      · rw [inv.unique there' here right]
        exact (moved one there left late).symm
      · rw [update_of_ne right] at late'
        exact inv.apart one there other there' different late late'
  headers := by rw [live]; exact headers
  count := by
    rw [count,inv.count,live,stage,countP_update inv.nodup (mem_map_of_mem here) old]
  pending := by
    refine inv.pending.congr same.digest same.asked [] (by rw [live,append_nil]) fun other there counted => ?_
    rw [stage,update_of_ne]
    · exact counted
    · rintro equal
      exact old (equal ▸ counted)

theorem Inv.away {other : Alloc} (here : alloc ∈ s.live) (there : other ∈ s.live)
    (returned : s.stage alloc.serial ≠ .reserved) (committed : (s.stage other.serial).committed = true)
    (different : other.serial ≠ alloc.serial) : other.tx.first < alloc.tx.first ∨ alloc.tx.stop ≤ other.tx.first := by
  have late : s.stage other.serial ≠ .reserved := fun reserved => by rw [reserved] at committed; cases committed
  have apart := inv.apart alloc here other there different.symm returned late
  have size := (inv.sizes other there).1
  unfold Segment.Apart Segment.stop at *
  omega

theorem Inv.writeData {alloc : Alloc} (found : atStage s serial .returned = some alloc)
    (contents : LogArea) : Inv { setStage s serial .written with ring := { s.ring with
      log := fun b => if alloc.tx.first < b ∧ b < alloc.tx.stop then contents b else s.ring.log b } } := by
  obtain ⟨here,rfl,stage⟩ := atStage_some found
  refine inv.moveOn here (by rw [stage]; decide) (by rw [stage]; rintro ⟨⟩) rfl rfl rfl rfl ⟨rfl,rfl,rfl,rfl⟩ ?_ rfl
  intro other there committed
  dsimp only [setStage] at committed ⊢
  by_cases same : other.serial = alloc.serial
  · rw [same,update_self] at committed
    cases committed
  · rw [update_of_ne same] at committed
    have away := inv.away here there (by rw [stage]; decide) committed same
    rw [if_neg (by omega)]
    exact inv.headers other there committed

theorem Inv.writeHeader (found : atStage s serial .written = some alloc) :
    Inv { setStage s serial .headed with ring := { s.ring with
      log := fun b => if b = alloc.tx.first then ⟨alloc.tx.count % 2 ^ 16,lhCommitMagic⟩ else s.ring.log b } } := by
  obtain ⟨here,rfl,stage⟩ := atStage_some found
  refine inv.moveOn here (by rw [stage]; decide) (by rw [stage]; rintro ⟨⟩) rfl rfl rfl rfl ⟨rfl,rfl,rfl,rfl⟩ ?_ rfl
  intro other there committed
  have size := (inv.sizes alloc here)
  dsimp only [setStage] at committed ⊢
  by_cases same : other.serial = alloc.serial
  · rw [inv.unique there here same,if_pos rfl,Nat.mod_eq_of_lt]
    exact lt_trans size.2 (by decide)
  · rw [update_of_ne same] at committed
    have away := inv.away here there (by rw [stage]; decide) committed same
    unfold Segment.stop at away
    rw [if_neg (by omega)]
    exact inv.headers other there committed

theorem Inv.afterHeader (here : alloc ∈ s.live)
    (committed : (s.stage alloc.serial).committed = true) :
    ∀ other ∈ s.live, (update s.stage alloc.serial new other.serial).committed = true →
      s.ring.log other.tx.first = ⟨other.tx.count,lhCommitMagic⟩ := by
  intro other there late
  by_cases same : other.serial = alloc.serial
  · rw [inv.unique there here same]
    exact inv.headers alloc here committed
  · rw [update_of_ne same] at late
    exact inv.headers other there late

theorem Inv.addUnsync (found : atStage s serial .headed = some alloc) :
    Inv { setStage s serial .unsynced with nUnsync := s.nUnsync + 1,nUnsyncBlk := s.nUnsyncBlk + alloc.tx.count } := by
  obtain ⟨here,rfl,stage⟩ := atStage_some found
  exact inv.moveOn here (by rw [stage]; decide) (by rw [stage]; rintro ⟨⟩) rfl rfl rfl rfl ⟨rfl,rfl,rfl,rfl⟩
    (inv.afterHeader here (by rw [stage]; rfl)) rfl

theorem Inv.countUp (found : atStage s serial .unsynced = some alloc) :
    Inv { setStage s serial .counted with ring := { s.ring with nDigest := (s.ring.nDigest + 1) % 2 ^ 32 } } := by
  obtain ⟨here,rfl,stage⟩ := atStage_some found
  refine inv.moveOn here (by rw [stage]; decide) (by rw [stage]; rintro ⟨⟩) rfl rfl rfl rfl ⟨rfl,rfl,rfl,rfl⟩
    (inv.afterHeader here (by rw [stage]; rfl)) ?_
  have few := inv.few
  dsimp only
  rw [Nat.mod_eq_of_lt (by unfold gLogSize at few; omega)]
  rfl

theorem Inv.ret {alloc : Alloc} (found : atStage s serial .reserved = some alloc)
    (free : ReturnFree s serial) : Inv (setStage s serial .returned) := by
  obtain ⟨here,rfl,stage⟩ := atStage_some found
  refine inv.moveOn here (by rw [stage]; decide) (fun _ => free) rfl rfl rfl rfl ⟨rfl,rfl,rfl,rfl⟩ ?_ rfl
  intro other there committed
  dsimp only [setStage] at committed ⊢
  by_cases same : other.serial = alloc.serial
  · rw [same,update_self] at committed
    cases committed
  · rw [update_of_ne same] at committed
    exact inv.headers other there committed

end

theorem wrapTail_place (nrBlocks : Nat) (ring : LogRing.State) (low : ring.begin ≤ ring.nextAvailHeader) (some_ : 0 < nrBlocks) :
    (wrapTail nrBlocks ring).logSbBlk = ring.logSbBlk ∧ (wrapTail nrBlocks ring).digest = ring.digest ∧
      (wrapTail nrBlocks ring).nDigestReq = ring.nDigestReq ∧ (wrapTail nrBlocks ring).log = ring.log ∧
      (wrapTail nrBlocks ring).nDigest = ring.nDigest ∧ ring.begin ≤ (wrapTail nrBlocks ring).nextAvailHeader ∧
      (wrapTail nrBlocks ring).nextAvailHeader < ring.size := by
  unfold wrapTail
  split
  · refine ⟨rfl,rfl,rfl,rfl,rfl,le_refl _,?_⟩
    simp only [LogRing.State.begin,LogRing.State.size]
    unfold gLogSize
    omega
  · rename_i fits
    exact ⟨rfl,rfl,rfl,rfl,rfl,low,by omega⟩

theorem Inv.reserve (inv : Inv s) {nrBlocks : Nat} (some_ : 0 < nrBlocks) (small : nrBlocks < gLogSize) :
    Inv { s with
      ring := { wrapTail nrBlocks s.ring with nextAvailHeader := (wrapTail nrBlocks s.ring).nextAvailHeader + nrBlocks }
      nextSerial := s.nextSerial + 1
      live := s.live ++ [⟨s.nextSerial,⟨(wrapTail nrBlocks s.ring).nextAvailHeader,nrBlocks⟩⟩]
      stage := update s.stage s.nextSerial .reserved } := by
  obtain ⟨place,digest,asked,log,count,low,high⟩ := wrapTail_place nrBlocks s.ring inv.tail some_
  have begin_ : (wrapTail nrBlocks s.ring).begin = s.ring.begin := by simp only [LogRing.State.begin,place]
  have size_ : (wrapTail nrBlocks s.ring).size = s.ring.size := by simp only [LogRing.State.size,place]
  have stage : ∀ alloc ∈ s.live, update s.stage s.nextSerial .reserved alloc.serial = s.stage alloc.serial :=
    fun alloc listed => update_of_ne (inv.old alloc listed).ne _ _
  -- the new transaction is the only one that is not an old one
  have both : ∀ alloc ∈ s.live ++ [(⟨s.nextSerial,⟨(wrapTail nrBlocks s.ring).nextAvailHeader,nrBlocks⟩⟩ : Alloc)],
      alloc ∈ s.live ∨ update s.stage s.nextSerial .reserved alloc.serial = .reserved ∧
        alloc = ⟨s.nextSerial,⟨(wrapTail nrBlocks s.ring).nextAvailHeader,nrBlocks⟩⟩ := by
    intro alloc listed
    rcases mem_append.mp listed with old | new
    · exact .inl old
    · rw [mem_singleton.mp new]
      exact .inr ⟨update_self ..,rfl⟩
  exact {
    serials := by rw [map_append,← append_assoc,inv.serials,range_succ]; rfl
    sizes := by
      intro alloc listed
      rcases both alloc listed with old | ⟨_,rfl⟩
      · exact inv.sizes alloc old
      · exact ⟨some_,small⟩
    area := by
      intro alloc listed
      change (wrapTail nrBlocks s.ring).begin ≤ alloc.tx.first ∧ alloc.tx.first < (wrapTail nrBlocks s.ring).size
      rw [begin_,size_]
      rcases both alloc listed with old | ⟨_,rfl⟩
      · exact inv.area alloc old
      · exact ⟨low,high⟩
    tail := by
      change (wrapTail nrBlocks s.ring).begin ≤ (wrapTail nrBlocks s.ring).nextAvailHeader + nrBlocks
      rw [begin_]
      omega
    apart := by
      intro one here other there different late late'
      rcases both one here with old | ⟨reserved,_⟩
      · rcases both other there with old' | ⟨reserved,_⟩
        · dsimp only at late late'
          rw [stage one old] at late
          rw [stage other old'] at late'
          exact inv.apart one old other old' different late late'
        · exact absurd reserved late'
      · exact absurd reserved late
    headers := by
      intro alloc listed committed
      change (wrapTail nrBlocks s.ring).log alloc.tx.first = _
      rw [log]
      rcases both alloc listed with old | ⟨reserved,_⟩
      · dsimp only at committed
        rw [stage alloc old] at committed
        exact inv.headers alloc old committed
      · dsimp only at committed
        rw [reserved] at committed
        cases committed
    count := by
      change (wrapTail nrBlocks s.ring).nDigest = _
      rw [count,inv.count,countP_append,countP_singleton]
      simp only [update_self,reduceCtorEq,decide_false,Bool.false_eq_true,if_false,add_zero]
      exact countP_congr fun alloc listed => by simp only [stage alloc listed]
    pending := inv.pending.congr digest asked _ rfl fun alloc listed counted => (stage alloc listed).trans counted }

theorem moveHead_same (ring : LogRing.State) : (moveHead ring).logSbBlk = ring.logSbBlk ∧
    (moveHead ring).nextAvailHeader = ring.nextAvailHeader ∧ (moveHead ring).log = ring.log ∧
    (moveHead ring).nDigest = ring.nDigest ∧ (moveHead ring).logEnd = ring.logEnd := by
  unfold moveHead
  split <;> exact ⟨rfl,rfl,rfl,rfl,rfl⟩

theorem Inv.requested_length (inv : Inv s) : (requested s).length = s.ring.nDigest := by
  rw [requested,length_take,inv.count]
  exact min_eq_left countP_le_length

theorem Inv.request (inv : Inv s) (order : RequestInOrder s) :
    Inv { s with ring := makeDigestRequestAsync s.ring } := by
  unfold makeDigestRequestAsync
  split
  · rename_i open_
    obtain ⟨place,tail,log,count,last⟩ := moveHead_same s.ring
    obtain ⟨linked,counted⟩ := order open_.1
    have few := inv.few
    have whole : 100 * s.ring.nDigest % 2 ^ 32 / 100 = s.ring.nDigest := by
      unfold gLogSize at few
      rw [Nat.mod_eq_of_lt (by omega)]
      omega
    have begin_ : (moveHead s.ring).begin = s.ring.begin := by simp only [LogRing.State.begin,place]
    have size_ : (moveHead s.ring).size = s.ring.size := by simp only [LogRing.State.size,place]
    unfold makeDigestRequestSync
    dsimp only
    rw [count,whole]
    exact {
      serials := inv.serials
      sizes := inv.sizes
      area := fun alloc listed => by
        change (moveHead s.ring).begin ≤ _ ∧ _ < (moveHead s.ring).size
        rw [begin_,size_]
        exact inv.area alloc listed
      tail := by
        change (moveHead s.ring).begin ≤ (moveHead s.ring).nextAvailHeader
        rw [begin_,tail]
        exact inv.tail
      apart := inv.apart
      headers := fun alloc listed committed => by
        change (moveHead s.ring).log _ = _
        rw [log]
        exact inv.headers alloc listed committed
      count := inv.count
      pending := by
        rw [← begin_,← last] at linked
        obtain ⟨next,rotated,follows⟩ := linked_follows linked
        exact ⟨requested s,s.live.drop s.ring.nDigest,next,rotated,(take_append_drop ..).symm,counted,
          inv.requested_length.symm,inv.requested_length.symm,follows⟩ }
  · exact inv

theorem Inv.walk (inv : Inv s) {request : DigestRequest} (sent : s.ring.digest = .sent request) (contents : LogArea) :
    ∃ area answer covered rest, digestLogs contents request.startBlkno request.endBlkno request.nHdrs s.ring.log
        request.startDigest = some (area,answer) ∧ s.live = covered ++ rest ∧
      (∀ alloc ∈ covered, s.stage alloc.serial = .counted) ∧ request.nHdrs = covered.length ∧
      answer.nDigested = covered.length ∧ s.ring.nDigestReq = covered.length ∧
      answer.visited = covered.map (fun alloc => alloc.tx.first) ∧
      ∀ alloc ∈ s.live, (s.stage alloc.serial).committed = true → area alloc.tx.first = s.ring.log alloc.tx.first := by
  have pending := inv.pending
  unfold Pending at pending
  rw [sent] at pending
  obtain ⟨covered,rest,next,rotated,split,counted,hdrs,asked,follows⟩ := pending
  have live : ∀ alloc ∈ covered, alloc ∈ s.live := fun alloc listed => by
    rw [split]
    exact mem_append_left _ listed
  have committed : ∀ alloc ∈ covered, (s.stage alloc.serial).committed = true := fun alloc listed => by
    rw [counted alloc listed]
    rfl
  have returned : ∀ alloc ∈ covered, s.stage alloc.serial ≠ .reserved := fun alloc listed => by
    rw [counted alloc listed]
    decide
  have nodup : (covered.map Alloc.serial).Nodup := by
    have all := inv.nodup
    rw [split,map_append] at all
    exact (nodup_append.mp all).1
  have apart : (covered.map Alloc.tx).Pairwise Segment.Apart := by
    refine List.pairwise_map.mpr ((List.pairwise_map.mp nodup).imp_of_mem ?_)
    intro one other here there different
    exact inv.apart one (live one here) other (live other there) different (returned one here) (returned other there)
  obtain ⟨area,walked,frame⟩ := digestLogs_follows contents s.ring.log follows
    (by
      intro tx listed
      obtain ⟨alloc,here,rfl⟩ := List.mem_map.mp listed
      exact inv.headers alloc (live alloc here) (committed alloc here))
    apart
    (by
      intro tx listed
      obtain ⟨alloc,here,rfl⟩ := List.mem_map.mp listed
      exact (inv.sizes alloc (live alloc here)).1)
  rw [length_map,List.map_map,← hdrs] at walked
  refine ⟨area,_,covered,rest,walked,split,counted,hdrs,hdrs,asked,rfl,?_⟩
  intro alloc here late
  refine frame _ fun tx listed => ?_
  obtain ⟨other,there,rfl⟩ := List.mem_map.mp listed
  by_cases same : alloc.serial = other.serial
  · rw [inv.unique here (live other there) same]
    omega
  · have away := inv.away (live other there) here (returned other there) late same
    omega

theorem Inv.kernfs (inv : Inv s) {contents : LogArea} (done : step s (.kernfs contents) = some s') : Inv s' := by
  simp only [step] at done
  split at done
  · rename_i asking sent
    obtain ⟨area,answer,covered,rest,walked,split_,counted,_,digested,asked,visited,kept⟩ := inv.walk sent contents
    rw [walked,map_some] at done
    cases done
    exact {
      serials := inv.serials
      sizes := inv.sizes
      area := inv.area
      tail := inv.tail
      apart := inv.apart
      headers := fun alloc listed committed => (kept alloc listed committed).trans (inv.headers alloc listed committed)
      count := inv.count
      pending := ⟨covered,rest,split_,counted,digested,asked,visited⟩ }
  · cases done

theorem handled_same {answer : DigestAnswer} (handled : handleDigestResponse answer ring = some ring') :
    ring'.logSbBlk = ring.logSbBlk ∧ ring'.nextAvailHeader = ring.nextAvailHeader ∧ ring'.log = ring.log ∧
      ring'.nDigest = (ring.nDigest + 2 ^ 32 - answer.nDigested % 2 ^ 32) % 2 ^ 32 ∧ ring'.digest = .idle := by
  unfold handleDigestResponse at handled
  split at handled
  · cases handled
    dsimp only
    split <;> exact ⟨rfl,rfl,rfl,rfl,rfl⟩
  · cases handled

theorem Inv.split_covered (inv : Inv s) {answer : DigestAnswer} {covered rest : List Alloc}
    (split : s.live = covered ++ rest) (counted : ∀ alloc ∈ covered, s.stage alloc.serial = .counted)
    (visited : answer.visited = covered.map fun alloc => alloc.tx.first) :
    s.live.filter (covers s answer) = covered ∧ (s.live.filter fun alloc => !covers s answer alloc) = rest := by
  have inside : ∀ alloc ∈ covered, covers s answer alloc = true := by
    intro alloc listed
    unfold covers
    rw [counted alloc listed,visited,decide_eq_true (mem_map_of_mem listed)]
    rfl
  have outside : ∀ alloc ∈ rest, covers s answer alloc = false := by
    intro alloc listed
    by_contra hit
    obtain ⟨seen,committed⟩ := (Bool.and_eq_true _ _).mp (Bool.not_eq_false _ ▸ hit : covers s answer alloc = true)
    have seen := of_decide_eq_true seen
    rw [visited] at seen
    obtain ⟨other,there,same⟩ := mem_map.mp seen
    have live : other ∈ s.live := by rw [split]; exact mem_append_left _ there
    have live' : alloc ∈ s.live := by rw [split]; exact mem_append_right _ listed
    have different : other.serial ≠ alloc.serial := by
      have nodup := inv.nodup
      rw [split,map_append] at nodup
      exact (nodup_append.mp nodup).2.2 _ (mem_map_of_mem there) _ (mem_map_of_mem listed)
    have returned : s.stage other.serial ≠ .reserved := by rw [counted other there]; decide
    have late : s.stage alloc.serial ≠ .reserved := fun reserved => by rw [reserved] at committed; cases committed
    exact apart_first (inv.apart other live alloc live' different returned late) (inv.sizes other live).1
      (inv.sizes alloc live').1 same
  constructor
  · rw [split,filter_append,filter_eq_self.mpr inside,filter_eq_nil_iff.mpr fun alloc listed => by
      rw [outside alloc listed]; decide,append_nil]
  · rw [split,filter_append,filter_eq_nil_iff.mpr fun alloc listed => by
      rw [inside alloc listed]; decide,nil_append,filter_eq_self.mpr fun alloc listed => by
      rw [outside alloc listed]; rfl]

theorem Inv.respond (inv : Inv s) (done : step s .respond = some s') : Inv s' := by
  simp only [step] at done
  split at done
  · rename_i answer answered
    obtain ⟨ring,handled,rfl⟩ := map_eq_some_iff.mp done
    have pending := inv.pending
    unfold Pending at pending
    rw [answered] at pending
    obtain ⟨covered,rest,split_,counted,digested,asked,visited⟩ := pending
    obtain ⟨inside,outside⟩ := inv.split_covered split_ counted visited
    obtain ⟨place,tail,log,count,idle⟩ := handled_same handled
    rw [inside,outside]
    have live : ∀ alloc ∈ rest, alloc ∈ s.live := fun alloc listed => by rw [split_]; exact mem_append_right _ listed
    have begin_ : ring.begin = s.ring.begin := by simp only [LogRing.State.begin,place]
    have size_ : ring.size = s.ring.size := by simp only [LogRing.State.size,place]
    exact {
      serials := by
        rw [append_assoc,← map_append,← split_]
        exact inv.serials
      sizes := fun alloc listed => inv.sizes alloc (live alloc listed)
      area := fun alloc listed => by
        change ring.begin ≤ _ ∧ _ < ring.size
        rw [begin_,size_]
        exact inv.area alloc (live alloc listed)
      tail := by
        change ring.begin ≤ ring.nextAvailHeader
        rw [begin_,tail]
        exact inv.tail
      apart := fun one here other there => inv.apart one (live one here) other (live other there)
      headers := fun alloc listed committed => by
        change ring.log _ = _
        rw [log]
        exact inv.headers alloc (live alloc listed) committed
      count := by
        have few := inv.few
        have total := inv.count
        have all : (covered.countP fun alloc => s.stage alloc.serial = .counted) = covered.length :=
          countP_eq_length.mpr fun alloc listed => decide_eq_true (counted alloc listed)
        rw [split_,countP_append,all] at total
        change ring.nDigest = rest.countP fun alloc => s.stage alloc.serial = .counted
        rw [count,digested]
        unfold gLogSize at few
        omega
      pending := by
        unfold Pending
        dsimp only
        rw [idle]
        trivial }
  · cases done

theorem step_inv {action : Action} (inv : Inv s) (order : InOrder s action) (done : step s action = some s') :
    Inv s' := by
  cases action with
  | request => cases done; exact inv.request order
  | reserve nrBlocks =>
    obtain ⟨_,reserved⟩ := ite_none_left_eq_some.mp done
    cases reserved
    exact inv.reserve order.1 order.2
  | ret serial =>
    obtain ⟨_,returned⟩ := ite_none_left_eq_some.mp done
    obtain ⟨alloc,found,rfl⟩ := map_eq_some_iff.mp returned
    exact inv.ret found order
  | writeData serial contents =>
    obtain ⟨alloc,found,rfl⟩ := map_eq_some_iff.mp done
    exact inv.writeData found contents
  | writeHeader serial =>
    obtain ⟨alloc,found,rfl⟩ := map_eq_some_iff.mp done
    exact inv.writeHeader found
  | addUnsync serial =>
    obtain ⟨alloc,found,rfl⟩ := map_eq_some_iff.mp done
    exact inv.addUnsync found
  | count serial =>
    obtain ⟨alloc,found,rfl⟩ := map_eq_some_iff.mp done
    exact inv.countUp found
  | kernfs contents => exact inv.kernfs done
  | respond => exact inv.respond done

theorem Inv.finish (inv : Inv s) {request : DigestRequest} (sent : s.ring.digest = .sent request) (contents : LogArea) :
    ∃ area answer next, digestLogs contents request.startBlkno request.endBlkno request.nHdrs s.ring.log
        request.startDigest = some (area,answer) ∧
      answer.visited = (s.live.take request.nHdrs).map (fun alloc => alloc.tx.first) ∧
      (∀ alloc ∈ s.live.take request.nHdrs, s.stage alloc.serial = .counted) ∧
      run step s [.kernfs contents,.respond] = some next ∧
      next.digested = s.digested ++ (s.live.take request.nHdrs).map Alloc.serial ∧ next.live = s.live.drop request.nHdrs := by
  obtain ⟨area,answer,covered,rest,walked,split_,counted,hdrs,digested,asked,visited,_⟩ := inv.walk sent contents
  have front : s.live.take request.nHdrs = covered := by rw [split_,hdrs,take_left]
  have back : s.live.drop request.nHdrs = rest := by rw [split_,hdrs,drop_left]
  rw [front,back]
  have stepped : step s (.kernfs contents) = some { s with ring := { s.ring with log := area,digest := .done answer } } := by
    simp only [step,sent,walked,map_some]
  obtain ⟨inside,outside⟩ := (inv.kernfs stepped).split_covered split_ counted visited
  obtain ⟨ring,handled⟩ : ∃ ring, handleDigestResponse answer { s.ring with log := area,digest := .done answer } = some ring := by
    unfold handleDigestResponse
    rw [if_pos (asked.trans digested.symm)]
    exact ⟨_,rfl⟩
  refine ⟨area,answer,
    { s with ring := ring,live := rest,digested := s.digested ++ covered.map Alloc.serial },walked,visited,counted,?_,rfl,rfl⟩
  rw [run,stepped,bind_some,run]
  simp only [step,handled,map_some,bind_some,run]
  rw [inside,outside]

-- The transactions allocated so far are those digested, each once and in log order, then those in the log; a pending
-- digest walks over complete commits.
theorem commits_digested_once (logSbBlk : Nat) (log : LogArea) (actions : List Action) (s : State)
    (ordered : Guarded step InOrder (initLog logSbBlk log) actions) (ran : run step (initLog logSbBlk log) actions = some s) :
    s.digested ++ s.live.map Alloc.serial = List.range s.nextSerial ∧
    (∀ request contents, s.ring.digest = .sent request → ∃ area answer next,
      digestLogs contents request.startBlkno request.endBlkno request.nHdrs s.ring.log request.startDigest = some (area,answer) ∧
      answer.visited = (s.live.take request.nHdrs).map (fun alloc => alloc.tx.first) ∧
      (∀ alloc ∈ s.live.take request.nHdrs, s.stage alloc.serial = .counted) ∧
      run step s [.kernfs contents,.respond] = some next ∧
      next.digested = s.digested ++ (s.live.take request.nHdrs).map Alloc.serial ∧ next.live = s.live.drop request.nHdrs) ∧
    (s.ring.digest = .idle → s.live ≠ [] → (∀ alloc ∈ s.live, s.stage alloc.serial = .counted) → RequestInOrder s →
      ∀ contents, ∃ next, run step s [.request,.kernfs contents,.respond] = some next ∧ next.live = [] ∧
        next.digested = List.range s.nextSerial) := by
  have inv := invariant_run step InOrder Inv (fun _ _ _ inv order done => step_inv inv order done) _ s actions
    (init_inv logSbBlk log) ordered ran
  refine ⟨inv.serials,fun request contents sent => inv.finish sent contents,?_⟩
  intro idle some_ counted order contents
  have all : s.ring.nDigest = s.live.length := by
    rw [inv.count]
    exact countP_eq_length.mpr fun alloc listed => decide_eq_true (counted alloc listed)
  have positive : 0 < s.ring.nDigest := all ▸ length_pos_iff.mpr some_
  obtain ⟨asking,sent,hdrs⟩ : ∃ asking, (makeDigestRequestAsync s.ring).digest = .sent asking ∧ asking.nHdrs = s.live.length := by
    unfold makeDigestRequestAsync
    rw [if_pos ⟨idle,positive⟩]
    refine ⟨_,rfl,?_⟩
    have few := inv.few
    change 100 * (moveHead s.ring).nDigest % 2 ^ 32 / 100 = _
    rw [(moveHead_same s.ring).2.2.2.1,← all]
    unfold gLogSize at few
    omega
  obtain ⟨_,_,next,_,_,_,finished,digested,left⟩ := (inv.request order).finish sent contents
  refine ⟨next,finished,?_,?_⟩
  · rw [left,hdrs,drop_length]
  · rw [digested,hdrs,take_length]
    exact inv.serials

def overtakingRun : List Action :=
  [.reserve 3,.reserve 2,.ret 0,.ret 1,.writeData 1 blankLog,.writeHeader 1,.writeData 0 blankLog,.addUnsync 1,.writeHeader 0,
    .count 1,.addUnsync 0,.count 0,.request]

theorem commits_digested_once_overtaken : ∃ s request next, run step (initLog 616960 blankLog) overtakingRun = some s ∧
    s.ring.digest = .sent request ∧ request.nHdrs = 2 ∧ run step s [.kernfs blankLog,.respond] = some next ∧
    next.digested = [0,1] := by
  have found : (run step (initLog 616960 blankLog) overtakingRun).map (fun s => (s.ring.digest,s.digested,s.live.map Alloc.serial)) =
      some (.sent ⟨2,616961,616961,0⟩,[],[0,1]) := by decide +kernel
  obtain ⟨s,ran,values⟩ := map_eq_some_iff.mp found
  simp only [Prod.mk.injEq] at values
  obtain ⟨sent,before,serials⟩ := values
  obtain ⟨_,pending,_⟩ := commits_digested_once 616960 blankLog overtakingRun s (by decide +kernel) ran
  obtain ⟨_,_,next,_,_,_,finished,digested,_⟩ := pending _ blankLog sent
  refine ⟨s,_,next,ran,sent,rfl,finished,?_⟩
  rw [digested,before,map_take,serials]
  rfl

-- The first transaction of the second lap waits for its data while the next is counted: the request starts where the
-- header of the lap before still has the commit magic.
def wholeCommit (serial blocks : Nat) : List Action :=
  [.reserve blocks,.ret serial,.writeData serial blankLog,.writeHeader serial,.addUnsync serial,.count serial]

def earlyCountRun : List Action :=
  (List.range 7).flatMap (wholeCommit · 4096) ++ [.request,.kernfs blankLog,.respond,.reserve 4097,.ret 7] ++ wholeCommit 8 1000 ++
    [.request]

theorem early_count_skips_commit : ∃ s request area answer next,
    run step (initLog 616960 blankLog) earlyCountRun = some s ∧ s.digested = List.range 7 ∧ s.ring.digest = .sent request ∧
    digestLogs blankLog request.startBlkno request.endBlkno request.nHdrs s.ring.log request.startDigest = some (area,answer) ∧
    answer.visited = [616961] ∧ s.live.map (fun alloc => (alloc.tx.first,s.stage alloc.serial)) =
      [(616961,.returned),(621058,.counted)] ∧
    run step s [.kernfs blankLog,.respond] = some next ∧ next.digested = List.range 7 ∧ next.ring.nDigest = 0 ∧
    next.stage 8 = .counted := by
  obtain ⟨s,ran,before,sent,live,⟨area,answer,walked,visited⟩,next,finished,after⟩ :
      ∃ s, run step (initLog 616960 blankLog) earlyCountRun = some s ∧ s.digested = List.range 7 ∧
        s.ring.digest = .sent ⟨1,616961,616961,645632⟩ ∧
        s.live.map (fun alloc => (alloc.tx.first,s.stage alloc.serial)) = [(616961,.returned),(621058,.counted)] ∧
        (∃ area answer, digestLogs blankLog 616961 645632 1 s.ring.log 616961 = some (area,answer) ∧ answer.visited = [616961]) ∧
        ∃ next, run step s [.kernfs blankLog,.respond] = some next ∧ next.digested = List.range 7 ∧ next.ring.nDigest = 0 ∧
          next.stage 8 = .counted := by decide +kernel
  exact ⟨s,_,area,answer,next,ran,before,sent,walked,visited,live,finished,after⟩

end Assise.ConcurrentLog
