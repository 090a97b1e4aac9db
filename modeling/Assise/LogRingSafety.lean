import Assise.LogRing

-- When the ring keeps its promises: which transactions a digest request covers and
-- which blocks `log_alloc` hands out, over every run of the log machine.
namespace Assise.LogRing
open Lib.Runs Lib.Segments List

def Phase.held : Phase → List Tx
  | .reserved hdr nrBlocks | .waiting hdr nrBlocks | .tested hdr nrBlocks | .allocated hdr nrBlocks => [⟨hdr,nrBlocks⟩]
  | .idle | .entered _ => []

def Phase.retrying : Phase → Bool
  | .reserved _ _ | .waiting _ _ | .tested _ _ => true
  | .idle | .entered _ | .allocated _ _ => false

def NotAt (last : Nat) (txs : List Tx) : Prop := ∀ tx ∈ txs, tx.stop ≠ last + 1

-- Head and tail on the same lap: one chain from head to tail. `logEnd` may still name the end of an earlier lap.
structure Unwrapped (s : State) : Prop where
  versions : s.availVersion = s.startVersion
  low : s.begin ≤ s.startBlk
  chain : Chain s.startBlk (s.undigested ++ s.phase.held) s.nextAvailHeader
  high : s.nextAvailHeader ≤ s.size
  stale : NotAt s.logEnd (s.undigested ++ s.phase.held)

-- The tail is one lap ahead: the older transactions fill the blocks up to `logEnd`, the younger ones start at the
-- beginning and stay below the head.
structure Wrapped (s : State) (upper lower : List Tx) (top : Nat) : Prop where
  versions : s.availVersion = s.startVersion + 1
  split : s.undigested = upper ++ lower
  low : s.begin ≤ s.startBlk
  older : Chain s.startBlk upper (s.logEnd + 1)
  start : s.begin ≤ s.logEnd
  bound : s.logEnd < s.size
  younger : Chain s.begin lower top
  held : Chain top s.phase.held s.nextAvailHeader
  below : top ≤ s.startBlk
  ahead : s.begin < s.nextAvailHeader
  high : s.nextAvailHeader ≤ s.size
  room : s.phase.retrying = false → s.nextAvailHeader ≤ s.startBlk
  fresh : NotAt s.logEnd (lower ++ s.phase.held)

-- A digest of the single transaction that filled the whole earlier lap does not
-- report the rotation: the waiting allocation then never returns.
structure Stuck (s : State) : Prop where
  versions : s.availVersion = s.startVersion + 1
  empty : s.undigested = []
  head : s.startBlk = s.begin
  ahead : s.begin < s.nextAvailHeader
  retrying : s.phase.retrying = true
  idle : s.digest = .idle

def Lap (s : State) : Prop := Unwrapped s ∨ (∃ upper lower top, Wrapped s upper lower top) ∨ Stuck s

def Follows (begin last : Nat) : Nat → List Tx → Nat → Bool → Prop
  | a,[],b,rotated => a = b ∧ rotated = false
  | a,tx :: rest,b,rotated =>
    tx.first = a ∧ ∃ later, Follows begin last (nextLoghdrBlknr a tx.count begin last) rest b later ∧
      rotated = (decide (nextLoghdrBlknr a tx.count begin last < a) || later)

inductive Coverage (s : State) : List Tx → Nat → Bool → Prop
  | plain {covered : List Tx} {next : Nat} : Chain s.startBlk covered next → Coverage s covered next false
  | crossing {upper lower : List Tx} {next : Nat} : s.availVersion = s.startVersion + 1 → upper ≠ [] →
      Chain s.startBlk upper (s.logEnd + 1) → Chain s.begin lower next → Coverage s (upper ++ lower) next true
  | turned {tx : Tx} : s.availVersion = s.startVersion + 1 → s.startBlk = s.begin →
      Chain s.begin [tx] (s.logEnd + 1) → Coverage s [tx] s.begin false

def Pending (s : State) : Prop :=
  match s.digest with
  | .idle => True
  | .sent request => ∃ covered rest next rotated, s.undigested = covered ++ rest ∧
      request.nHdrs = covered.length ∧ s.nDigestReq = covered.length ∧
      Follows request.startBlkno request.endBlkno request.startDigest covered next rotated ∧
      Coverage s covered next rotated
  | .done answer => ∃ covered rest, s.undigested = covered ++ rest ∧
      answer.nDigested = covered.length ∧ s.nDigestReq = covered.length ∧
      answer.visited = covered.map Segment.first ∧ Coverage s covered answer.nextHdr answer.rotated

structure Inv (s : State) : Prop where
  lap : Lap s
  headers : ∀ tx ∈ s.undigested, s.log tx.first = ⟨tx.count,lhCommitMagic⟩
  count : s.nDigest = s.undigested.length
  pending : Pending s
  version : s.availVersion < 2 ^ 32
  positive : ∀ nrBlocks, s.phase = .entered nrBlocks → 0 < nrBlocks

-- No head beyond a stale `logEnd` when a request is sent, no second wrap of the tail before the head's, and no
-- transaction that ends at the block `logEnd` names.
def RequestOk (s : State) : Prop :=
  s.availVersion = s.startVersion → s.logEnd = 0 ∨ s.startBlk ≤ s.logEnd

instance (s : State) : Decidable (RequestOk s) := inferInstanceAs (Decidable (_ → _))

def ReserveOk (s : State) (nrBlocks : Nat) : Prop :=
  nrBlocks < gLogSize ∧
  if s.size < s.nextAvailHeader + nrBlocks then
    s.availVersion = s.startVersion ∧ s.availVersion + 1 < 2 ^ 32 ∧ s.begin + nrBlocks ≠ s.nextAvailHeader
  else s.logEnd = 0 ∨ s.nextAvailHeader + nrBlocks ≠ s.logEnd + 1

instance (s : State) (nrBlocks : Nat) : Decidable (ReserveOk s nrBlocks) := inferInstanceAs (Decidable (_ ∧ _))

def RingOk (threshold : Nat) (s : State) : Action → Prop
  | .request => RequestOk s
  | .enter _ => aboveThreshold threshold s = true → RequestOk s
  | .reserve =>
    match s.phase with
    | .entered nrBlocks => ReserveOk s nrBlocks
    | _ => True
  | .check | .waited | .recheck | .commit _ | .kernfs _ | .respond => True

instance (threshold : Nat) (s : State) : ∀ action, Decidable (RingOk threshold s action)
  | .request => inferInstanceAs (Decidable (RequestOk s))
  | .enter _ => inferInstanceAs (Decidable (_ → _))
  | .reserve =>
    match h : s.phase with
    | .entered nrBlocks => decidable_of_iff (ReserveOk s nrBlocks) (by simp [RingOk,h])
    | .idle | .reserved _ _ | .waiting _ _ | .tested _ _ | .allocated _ _ => .isTrue (by simp [RingOk,h])
  | .check | .waited | .recheck | .commit _ | .kernfs _ | .respond => .isTrue trivial

variable {last a b begin next hdr nrBlocks threshold : Nat} {tx : Tx} {txs lower upper rest : List Tx} {s : State}
    {request : DigestRequest}

theorem next_plain (begin : Nat) (first : tx.first = a) (count : 0 < tx.count)
    (notLast : tx.stop ≠ last + 1) : nextLoghdrBlknr a tx.count begin last = tx.stop := by
  simp only [nextLoghdrBlknr,Segment.stop] at *
  rw [if_neg (by omega),first]

theorem next_last (begin : Nat) (first : tx.first = a) (atLast : tx.stop = last + 1) : nextLoghdrBlknr a tx.count begin last = begin := by
  simp only [nextLoghdrBlknr,Segment.stop] at *
  rw [if_pos (by omega)]

theorem follows_plain (begin : Nat) (chain : Chain a txs b) (notLast : NotAt last txs) :
    Follows begin last a txs b false := by
  induction txs generalizing a with
  | nil => exact ⟨chain,rfl⟩
  | cons tx rest ih =>
    obtain ⟨first,count,later⟩ := chain
    have next := next_plain begin first count (notLast tx (by simp))
    have tail := ih later (fun other member => notLast other (by simp [member]))
    refine ⟨first,false,by rw [next]; exact tail,?_⟩
    simp only [next,Segment.stop,first,Bool.or_false]
    exact (decide_eq_false (by omega)).symm

theorem follows_append {m : Nat} {left right : List Tx} {early late : Bool}
    (first : Follows begin last a left m early) (second : Follows begin last m right b late) :
    Follows begin last a (left ++ right) b (early || late) := by
  induction left generalizing a early with
  | nil => obtain ⟨rfl,rfl⟩ := first; simpa using second
  | cons tx rest ih =>
    obtain ⟨hdr,later,tail,rotated⟩ := first
    exact ⟨hdr,later || late,ih tail,by rw [rotated,Bool.or_assoc]⟩

theorem follows_crossing (chain : Chain a txs (last + 1)) (some : txs ≠ [])
    (low : begin ≤ a) : ∃ rotated, Follows begin last a txs begin rotated ∧
      (rotated = false → ∃ tx, txs = [tx] ∧ a = begin) := by
  induction txs generalizing a with
  | nil => exact absurd rfl some
  | cons tx rest ih =>
    obtain ⟨first,count,later⟩ := chain
    cases rest with
    | nil =>
      have next := next_last begin first later
      refine ⟨decide (begin < a),⟨first,false,⟨next,rfl⟩,by rw [next,Bool.or_false]⟩,?_⟩
      intro same
      exact ⟨tx,rfl,by have := of_decide_eq_false same; omega⟩
    | cons second rest =>
      have bound := (chain_bounds later second (by simp)).2
      have order := chain_le later
      have mid : tx.stop ≠ last + 1 := by
        obtain ⟨firstSecond,_,_⟩ := later
        simp only [Segment.stop] at *
        omega
      have next := next_plain begin first count mid
      have above : begin < tx.stop := by simp only [Segment.stop]; omega
      obtain ⟨rotated,tail,single⟩ := ih later (by simp) (by omega)
      refine ⟨rotated,⟨first,rotated,by rw [next]; exact tail,?_⟩,?_⟩
      · rw [next,decide_eq_false (by simp only [Segment.stop]; omega),Bool.false_or]
      · intro same
        obtain ⟨_,_,start⟩ := single same
        omega

theorem digestEachLogEntries_outside (contents log : LogArea) (tx : Tx) (b : Nat)
    (outside : ¬(tx.first < b ∧ b < tx.stop)) : digestEachLogEntries contents tx log b = log b := if_neg outside

variable {top : Nat} {rotated : Bool} {tx : Tx}

theorem digestLogs_follows (contents log : LogArea)
    (follows : Follows begin last a txs b rotated) (headers : ∀ tx ∈ txs, log tx.first = ⟨tx.count,lhCommitMagic⟩)
    (apart : txs.Pairwise Segment.Apart) (counts : ∀ tx ∈ txs, 0 < tx.count) :
    ∃ area, digestLogs contents begin last txs.length log a =
        some (area,⟨txs.length,b,rotated,txs.map Segment.first⟩) ∧
      ∀ x, (∀ tx ∈ txs, ¬(tx.first < x ∧ x < tx.stop)) → area x = log x := by
  induction txs generalizing a log rotated with
  | nil =>
    obtain ⟨rfl,rfl⟩ := follows
    exact ⟨log,rfl,fun _ _ => rfl⟩
  | cons tx rest ih =>
    obtain ⟨first,later,tail,flag⟩ := follows
    have header := headers tx (by simp)
    obtain ⟨apartHead,apartRest⟩ := pairwise_cons.mp apart
    -- the body of this transaction holds no later header
    have kept : ∀ other ∈ rest, digestEachLogEntries contents ⟨a,tx.count⟩ log other.first =
        ⟨other.count,lhCommitMagic⟩ := by
      intro other member
      rw [digestEachLogEntries_outside,headers other (by simp [member])]
      have away := apartHead other member
      have positive := counts other (by simp [member])
      simp only [Segment.stop,Segment.Apart] at *
      omega
    obtain ⟨area,walk,frame⟩ := ih (digestEachLogEntries contents ⟨a,tx.count⟩ log) tail kept apartRest
      (fun other member => counts other (by simp [member]))
    refine ⟨area,?_,?_⟩
    · simp only [length_cons,digestLogs]
      rw [← first,header]
      simp only [if_true]
      rw [first,walk]
      simp [flag,first]
    · intro x outside
      have here := outside tx (by simp)
      rw [frame x (fun other member => outside other (by simp [member])),digestEachLogEntries_outside]
      simp only [Segment.stop] at *
      omega

theorem lap_bounds (lap : Lap s) :
    ∀ tx ∈ s.undigested, s.begin ≤ tx.first ∧ 0 < tx.count ∧ tx.stop ≤ s.size := by
  intro tx member
  rcases lap with plain | ⟨upper,lower,top,wrapped⟩ | stuck
  · obtain ⟨low,count,high⟩ := chain_bounds plain.chain tx (by simp [member])
    exact ⟨Nat.le_trans plain.low low,count,Nat.le_trans high plain.high⟩
  · rw [wrapped.split] at member
    rcases mem_append.mp member with member | member
    · obtain ⟨low,count,high⟩ := chain_bounds wrapped.older tx member
      exact ⟨Nat.le_trans wrapped.low low,count,Nat.le_trans high wrapped.bound⟩
    · obtain ⟨low,count,high⟩ := chain_bounds wrapped.younger tx member
      exact ⟨low,count,Nat.le_trans high (Nat.le_trans (chain_le wrapped.held) wrapped.high)⟩
  · rw [stuck.empty] at member
    cases member

theorem lap_apart (lap : Lap s) : s.undigested.Pairwise Segment.Apart := by
  rcases lap with plain | ⟨upper,lower,top,wrapped⟩ | stuck
  · obtain ⟨_,committed,_⟩ := chain_append.mp plain.chain
    exact chain_apart committed
  · rw [wrapped.split]
    refine pairwise_append.mpr ⟨chain_apart wrapped.older,chain_apart wrapped.younger,?_⟩
    intro old member young later
    have above := (chain_bounds wrapped.older old member).1
    have under := (chain_bounds wrapped.younger young later).2.2
    exact .inr (Nat.le_trans under (Nat.le_trans wrapped.below above))
  · rw [stuck.empty]
    exact .nil

theorem lap_length (lap : Lap s) : s.undigested.length ≤ gLogSize := by
  rcases lap with plain | ⟨upper,lower,top,wrapped⟩ | stuck
  · have total := chain_length plain.chain
    have low := plain.low
    have high := plain.high
    simp only [length_append,State.begin,State.size] at *
    omega
  · have older := chain_length wrapped.older
    have younger := chain_length wrapped.younger
    have below := wrapped.below
    have bound := wrapped.bound
    rw [wrapped.split]
    simp only [length_append,State.begin,State.size] at *
    omega
  · rw [stuck.empty]
    exact Nat.zero_le _

theorem Lap.setPhase {phase : Phase} (lap : Lap s) (held : phase.held = s.phase.held)
    (retrying : phase.retrying = s.phase.retrying) : Lap { s with phase := phase } := by
  rcases lap with plain | ⟨upper,lower,top,wrapped⟩ | stuck
  · exact .inl { plain with chain := by rw [held]; exact plain.chain,stale := by rw [held]; exact plain.stale }
  · exact .inr (.inl ⟨upper,lower,top,{ wrapped with
      held := by rw [held]; exact wrapped.held
      room := fun free => wrapped.room (retrying.symm.trans free)
      fresh := by rw [held]; exact wrapped.fresh }⟩)
  · exact .inr (.inr { stuck with retrying := retrying.trans stuck.retrying })

variable {covered : List Tx}

theorem Coverage.congr {t : State}
    (coverage : Coverage s covered next rotated) (head : t.startBlk = s.startBlk) (place : t.logSbBlk = s.logSbBlk)
    (wrap : s.availVersion = s.startVersion + 1 → t.availVersion = t.startVersion + 1 ∧ t.logEnd = s.logEnd) :
    Coverage t covered next rotated := by
  have begin : t.begin = s.begin := by simp only [State.begin,place]
  cases coverage with
  | plain chain => exact .plain (by rw [head]; exact chain)
  | crossing versions some older younger =>
    obtain ⟨versions,last⟩ := wrap versions
    exact .crossing versions some (by rw [head,last]; exact older) (by rw [begin]; exact younger)
  | turned versions start chain =>
    obtain ⟨versions,last⟩ := wrap versions
    rw [← begin]
    exact .turned versions (by rw [head,start,begin]) (by rw [begin,last]; exact chain)

theorem Pending.congr {t : State} (rest : List Tx) (pending : Pending s) (digest : t.digest = s.digest)
    (requested : t.nDigestReq = s.nDigestReq) (grown : t.undigested = s.undigested ++ rest)
    (head : t.startBlk = s.startBlk) (place : t.logSbBlk = s.logSbBlk)
    (wrap : s.availVersion = s.startVersion + 1 → t.availVersion = t.startVersion + 1 ∧ t.logEnd = s.logEnd) :
    Pending t := by
  unfold Pending at *
  rw [digest]
  cases sent : s.digest with
  | idle => trivial
  | sent request =>
    rw [sent] at pending
    obtain ⟨covered,others,next,rotated,split,hdrs,count,follows,coverage⟩ := pending
    exact ⟨covered,others ++ rest,next,rotated,by rw [grown,split,append_assoc],hdrs,
      requested.trans count,follows,coverage.congr head place wrap⟩
  | done answer =>
    rw [sent] at pending
    obtain ⟨covered,others,split,digested,count,visited,coverage⟩ := pending
    exact ⟨covered,others ++ rest,by rw [grown,split,append_assoc],digested,requested.trans count,
      visited,coverage.congr head place wrap⟩

theorem Inv.setPhase {phase : Phase} (inv : Inv s) (held : phase.held = s.phase.held)
    (retrying : phase.retrying = s.phase.retrying) (positive : ∀ nrBlocks, phase = .entered nrBlocks → 0 < nrBlocks) :
    Inv { s with phase := phase } :=
  ⟨inv.lap.setPhase held retrying,inv.headers,inv.count,
    inv.pending.congr [] rfl rfl (by simp) rfl rfl (fun versions => ⟨versions,rfl⟩),inv.version,positive⟩

structure Walkable (s : State) (next : Nat) (rotated : Bool) : Prop where
  lap : Lap s
  follows : Follows s.begin s.logEnd s.startBlk s.undigested next rotated
  coverage : Coverage s s.undigested next rotated

theorem unwrapped_walkable (plain : Unwrapped s) : ∃ next, Walkable s next false := by
  obtain ⟨next,committed,_⟩ := chain_append.mp plain.chain
  have notLast : NotAt s.logEnd s.undigested := fun tx member => plain.stale tx (by simp [member])
  exact ⟨next,.inl plain,follows_plain s.begin committed notLast,.plain committed⟩

theorem wrapped_walkable (wrapped : Wrapped s upper lower top)
    (behind : s.startBlk ≤ s.logEnd) : ∃ next rotated, Walkable s next rotated := by
  have lap : Lap s := .inr (.inl ⟨upper,lower,top,wrapped⟩)
  have some : upper ≠ [] := chain_head wrapped.older (by omega)
  have notLast : NotAt s.logEnd lower := fun tx member => wrapped.fresh tx (by simp [member])
  obtain ⟨rotated,across,single⟩ := follows_crossing wrapped.older some wrapped.low
  have walk := follows_append across (follows_plain s.begin wrapped.younger notLast)
  rw [← wrapped.split,Bool.or_false] at walk
  cases rotated with
  | true =>
    refine ⟨top,true,lap,walk,?_⟩
    rw [wrapped.split]
    exact .crossing wrapped.versions some wrapped.older wrapped.younger
  | false =>
    obtain ⟨tx,only,start⟩ := single rfl
    have below := wrapped.below
    have floor := chain_le wrapped.younger
    have same : top = s.begin := by omega
    subst same
    have none : lower = [] := chain_empty wrapped.younger
    refine ⟨s.begin,false,lap,walk,?_⟩
    rw [wrapped.split,none,only]
    refine .turned wrapped.versions start ?_
    rw [← start,← only]
    exact wrapped.older

theorem wrapped_moved (wrapped : Wrapped s upper lower top)
    (passed : s.logEnd < s.startBlk) (version : s.availVersion < 2 ^ 32) :
    Unwrapped { s with startBlk := s.begin,startVersion := (s.startVersion + 1) % 2 ^ 32 } := by
  have reached := chain_le wrapped.older
  have same : s.startBlk = s.logEnd + 1 := by omega
  have older := wrapped.older
  rw [same] at older
  have none : upper = [] := chain_empty older
  have split : s.undigested = lower := by rw [wrapped.split,none,nil_append]
  have versions := wrapped.versions
  refine ⟨?_,Nat.le_refl _,?_,wrapped.high,?_⟩
  · change s.availVersion = (s.startVersion + 1) % 2 ^ 32
    rw [Nat.mod_eq_of_lt (by omega),versions]
  · change Chain s.begin (s.undigested ++ s.phase.held) s.nextAvailHeader
    rw [split]
    exact chain_append.mpr ⟨top,wrapped.younger,wrapped.held⟩
  · change NotAt s.logEnd (s.undigested ++ s.phase.held)
    rw [split]
    exact wrapped.fresh

theorem moveHead_walkable (inv : Inv s) (ok : RequestOk s) (some : 0 < s.nDigest) :
    ∃ next rotated, Walkable (moveHead s) next rotated := by
  unfold moveHead
  rcases inv.lap with plain | ⟨upper,lower,top,wrapped⟩ | stuck
  · have head := ok plain.versions
    rw [if_neg (by omega)]
    obtain ⟨next,walkable⟩ := unwrapped_walkable plain
    exact ⟨next,false,walkable⟩
  · split
    · rename_i passed
      obtain ⟨next,walkable⟩ := unwrapped_walkable (wrapped_moved wrapped passed.2 inv.version)
      exact ⟨next,false,walkable⟩
    · rename_i behind
      have start := wrapped.start
      simp only [State.begin] at start
      exact wrapped_walkable wrapped (by omega)
  · have count := inv.count
    rw [stuck.empty,length_nil] at count
    omega

theorem moveHead_undigested (s : State) : (moveHead s).undigested = s.undigested := by
  unfold moveHead
  split <;> rfl

theorem moveHead_frame (s : State) : (moveHead s).log = s.log ∧ (moveHead s).nDigest = s.nDigest ∧
    (moveHead s).availVersion = s.availVersion ∧ (moveHead s).digest = s.digest ∧
    (moveHead s).phase = s.phase := by
  unfold moveHead
  split <;> exact ⟨rfl,rfl,rfl,rfl,rfl⟩

theorem full_request (inv : Inv s) : 100 * s.nDigest % 2 ^ 32 / 100 = s.undigested.length := by
  have bound := lap_length inv.lap
  simp only [gLogSize] at bound
  rw [inv.count,Nat.mod_eq_of_lt (by omega)]
  omega

theorem request_inv (inv : Inv s) (ok : RequestOk s) (some : 0 < s.nDigest) :
    Inv (makeDigestRequestSync 100 s) ∧ (makeDigestRequestSync 100 s).undigested = s.undigested ∧
    ∃ request next rotated, (makeDigestRequestSync 100 s).digest = .sent request ∧
      request.nHdrs = s.undigested.length ∧
      Follows request.startBlkno request.endBlkno request.startDigest s.undigested next rotated := by
  obtain ⟨next,rotated,walkable⟩ := moveHead_walkable inv ok some
  obtain ⟨log,count,version,digest,phase⟩ := moveHead_frame s
  have kept := moveHead_undigested s
  have full : 100 * (moveHead s).nDigest % 2 ^ 32 / 100 = s.undigested.length := by
    rw [count]
    exact full_request inv
  have follows := walkable.follows
  rw [kept] at follows
  refine ⟨⟨?_,?_,?_,?_,?_,?_⟩,kept,_,next,rotated,rfl,full,follows⟩
  · rcases walkable.lap with plain | ⟨upper,lower,top,wrapped⟩ | stuck
    · exact .inl { plain with }
    · exact .inr (.inl ⟨upper,lower,top,{ wrapped with }⟩)
    · have none := inv.count
      rw [← kept,stuck.empty,length_nil] at none
      omega
  · intro tx member
    change (moveHead s).log tx.first = _
    rw [log]
    exact inv.headers tx (by rw [← kept]; exact member)
  · change (moveHead s).nDigest = (moveHead s).undigested.length
    rw [count,kept]
    exact inv.count
  · have coverage := walkable.coverage
    rw [kept] at coverage
    exact ⟨s.undigested,[],next,rotated,by rw [append_nil]; exact kept,full,full,follows,
      coverage.congr rfl rfl (fun versions => ⟨versions,rfl⟩)⟩
  · change (moveHead s).availVersion < 2 ^ 32
    rw [version]
    exact inv.version
  · intro nrBlocks entered
    exact inv.positive nrBlocks (phase.symm.trans entered)

theorem makeDigestRequestAsync_inv (inv : Inv s) (ok : RequestOk s) : Inv (makeDigestRequestAsync s) := by
  unfold makeDigestRequestAsync
  split
  · rename_i ready
    exact (request_inv inv ok ready.2).1
  · exact inv

theorem notAt_held (apart : hdr + nrBlocks ≠ last + 1) :
    NotAt last [(⟨hdr,nrBlocks⟩ : Tx)] := by
  intro tx member
  rw [mem_singleton] at member
  rw [member]
  exact apart

theorem NotAt.append {left right : List Tx} (first : NotAt last left) (second : NotAt last right) :
    NotAt last (left ++ right) := by
  intro tx member
  rcases mem_append.mp member with member | member
  · exact first tx member
  · exact second tx member

theorem reserveBlocks_lap (lap : Lap s) (phase : s.phase = .entered nrBlocks)
    (positive : 0 < nrBlocks) (ok : ReserveOk s nrBlocks) : Lap (reserveBlocks nrBlocks s) := by
  obtain ⟨small,ok⟩ := ok
  unfold reserveBlocks wrapTail
  split at ok
  · rename_i wraps
    rw [if_pos wraps]
    obtain ⟨same,version,apart⟩ := ok
    rcases lap with plain | ⟨upper,lower,top,wrapped⟩ | stuck
    · have chain := plain.chain
      rw [phase,Phase.held,append_nil] at chain
      have low := plain.low
      have order := chain_le chain
      have high := plain.high
      simp only [State.begin,State.size,gLogSize] at *
      have last : s.nextAvailHeader - 1 + 1 = s.nextAvailHeader := by omega
      refine .inr (.inl ⟨s.undigested,[],s.begin,?_,by simp,plain.low,?_,?_,?_,rfl,⟨rfl,positive,rfl⟩,?_,?_,?_,?_,?_⟩)
      · simp only
        rw [Nat.mod_eq_of_lt version,plain.versions]
      · simp only [last]
        exact chain
      all_goals simp only [State.begin,State.size,Phase.retrying,gLogSize,Phase.held,nil_append]
      · omega
      · omega
      · exact plain.low
      · omega
      · omega
      · intro absurd; cases absurd
      · exact notAt_held (by omega)
    · have versions := wrapped.versions
      omega
    · have versions := stuck.versions
      omega
  · rename_i fits
    rw [if_neg fits]
    have room : s.nextAvailHeader + nrBlocks ≤ s.size := by omega
    rcases lap with plain | ⟨upper,lower,top,wrapped⟩ | stuck
    · have chain := plain.chain
      have stale := plain.stale
      have low := plain.low
      have order := chain_le chain
      rw [phase,Phase.held,append_nil] at chain stale
      refine .inl ⟨plain.versions,plain.low,chain_snoc chain rfl positive,room,stale.append (notAt_held ?_)⟩
      simp only [State.begin] at low
      omega
    · have held := wrapped.held
      have fresh := wrapped.fresh
      have start := wrapped.start
      have ahead := wrapped.ahead
      rw [phase,Phase.held] at held fresh
      rw [append_nil] at fresh
      have same : top = s.nextAvailHeader := held
      subst same
      refine .inr (.inl ⟨upper,lower,s.nextAvailHeader,{ wrapped with
        held := ⟨rfl,positive,rfl⟩,ahead := ?_,high := room,room := ?_,fresh := fresh.append (notAt_held ?_) }⟩)
      · change s.begin < s.nextAvailHeader + nrBlocks
        omega
      · intro absurd; cases absurd
      · simp only [State.begin] at start
        omega
    · have retrying := stuck.retrying
      rw [phase] at retrying
      cases retrying

theorem wrapTail_frame (nrBlocks : Nat) (s : State) : (wrapTail nrBlocks s).undigested = s.undigested ∧
    (wrapTail nrBlocks s).log = s.log ∧ (wrapTail nrBlocks s).nDigest = s.nDigest ∧
    (wrapTail nrBlocks s).digest = s.digest ∧ (wrapTail nrBlocks s).nDigestReq = s.nDigestReq ∧
    (wrapTail nrBlocks s).startBlk = s.startBlk ∧ (wrapTail nrBlocks s).logSbBlk = s.logSbBlk := by
  unfold wrapTail
  split <;> exact ⟨rfl,rfl,rfl,rfl,rfl,rfl,rfl⟩

theorem reserveBlocks_inv (inv : Inv s) (phase : s.phase = .entered nrBlocks)
    (ok : ReserveOk s nrBlocks) : Inv (reserveBlocks nrBlocks s) := by
  obtain ⟨undigested,log,count,digest,requested,head,place⟩ := wrapTail_frame nrBlocks s
  have version : (wrapTail nrBlocks s).availVersion < 2 ^ 32 := by
    unfold wrapTail
    split
    · exact Nat.mod_lt _ (by decide)
    · exact inv.version
  refine ⟨reserveBlocks_lap inv.lap phase (inv.positive _ phase) ok,?_,?_,?_,version,fun _ other => by cases other⟩
  · intro tx member
    change (wrapTail nrBlocks s).log tx.first = _
    rw [log]
    exact inv.headers tx (by rw [← undigested]; exact member)
  · exact count.trans (inv.count.trans (by rw [← undigested]; rfl))
  · refine inv.pending.congr [] digest requested (undigested.trans (by simp)) head place ?_
    intro versions
    have ok := ok.2
    change (wrapTail nrBlocks s).availVersion = (wrapTail nrBlocks s).startVersion + 1 ∧
      (wrapTail nrBlocks s).logEnd = s.logEnd
    unfold wrapTail
    split at ok
    · omega
    · rename_i fits
      rw [if_neg fits]
      exact ⟨versions,rfl⟩

theorem recheck_inv {nrBlocks : Nat} (inv : Inv s) (phase : s.phase = .tested hdr nrBlocks)
    (free : tailPastHead s = false) : Inv { s with phase := .allocated hdr nrBlocks } := by
  have free := of_decide_eq_false free
  have held : s.phase.held = [⟨hdr,nrBlocks⟩] := by rw [phase]; rfl
  refine ⟨?_,inv.headers,inv.count,
    inv.pending.congr [] rfl rfl (by simp) rfl rfl (fun versions => ⟨versions,rfl⟩),inv.version,
    fun _ other => by cases other⟩
  rcases inv.lap with plain | ⟨upper,lower,top,wrapped⟩ | stuck
  · have chain := plain.chain
    have stale := plain.stale
    rw [held] at chain stale
    exact .inl { plain with chain,stale }
  · have versions := wrapped.versions
    have kept := wrapped.held
    have fresh := wrapped.fresh
    rw [held] at kept fresh
    have room : s.nextAvailHeader ≤ s.startBlk := by omega
    exact .inr (.inl ⟨upper,lower,top,{ wrapped with held := kept,room := fun _ => room,fresh }⟩)
  · have versions := stuck.versions
    have ahead := stuck.ahead
    have head := stuck.head
    omega

theorem allocated_safe (lap : Lap s) (phase : s.phase = .allocated hdr nrBlocks) :
    s.begin ≤ hdr ∧ 0 < nrBlocks ∧ hdr + nrBlocks ≤ s.size ∧
    ∀ tx ∈ s.undigested, Segment.Apart tx ⟨hdr,nrBlocks⟩ := by
  have held : s.phase.held = [⟨hdr,nrBlocks⟩] := by rw [phase]; rfl
  rcases lap with plain | ⟨upper,lower,top,wrapped⟩ | stuck
  · have chain := plain.chain
    rw [held] at chain
    obtain ⟨middle,committed,first,positive,stop⟩ := chain_append.mp chain
    have low := plain.low
    have high := plain.high
    have order := chain_le committed
    have stop : hdr + nrBlocks = s.nextAvailHeader := stop
    have first : hdr = middle := first
    refine ⟨by omega,positive,by omega,fun tx member => .inl ?_⟩
    exact Nat.le_trans (chain_bounds committed tx member).2.2 (Nat.le_of_eq first.symm)
  · have kept := wrapped.held
    rw [held] at kept
    obtain ⟨first,positive,stop⟩ := kept
    have stop : hdr + nrBlocks = s.nextAvailHeader := stop
    have first : hdr = top := first
    have order := chain_le wrapped.younger
    have high := wrapped.high
    have room := wrapped.room (by rw [phase]; rfl)
    refine ⟨by omega,positive,by omega,?_⟩
    intro tx member
    rw [wrapped.split] at member
    rcases mem_append.mp member with member | member
    · have above := (chain_bounds wrapped.older tx member).1
      exact .inr (by simp only [Segment.stop]; omega)
    · have below := (chain_bounds wrapped.younger tx member).2.2
      exact .inl (by simp only; omega)
  · have retrying := stuck.retrying
    rw [phase] at retrying
    cases retrying

theorem commitLog_lap (contents : LogArea) (lap : Lap s)
    (phase : s.phase = .allocated hdr nrBlocks) : Lap (commitLog contents hdr nrBlocks s) := by
  have held : s.phase.held = [⟨hdr,nrBlocks⟩] := by rw [phase]; rfl
  rcases lap with plain | ⟨upper,lower,top,wrapped⟩ | stuck
  · have chain := plain.chain
    have stale := plain.stale
    rw [held] at chain stale
    refine .inl { plain with chain := ?_,stale := ?_ }
    · simpa [commitLog,Phase.held] using chain
    · simpa [commitLog,Phase.held] using stale
  · have kept := wrapped.held
    have fresh := wrapped.fresh
    rw [held] at kept fresh
    have room := wrapped.room (by rw [phase]; rfl)
    obtain ⟨first,positive,stop⟩ := kept
    have younger := chain_snoc wrapped.younger first positive
    rw [stop] at younger
    refine .inr (.inl ⟨upper,lower ++ [(⟨hdr,nrBlocks⟩ : Tx)],s.nextAvailHeader,{ wrapped with
      split := ?_,younger,held := rfl,below := room,room := fun _ => room,fresh := ?_ }⟩)
    · simp [commitLog,wrapped.split]
    · simpa [commitLog,Phase.held] using fresh
  · have retrying := stuck.retrying
    rw [phase] at retrying
    cases retrying

theorem commitLog_inv (contents : LogArea) (inv : Inv s)
    (phase : s.phase = .allocated hdr nrBlocks) : Inv (commitLog contents hdr nrBlocks s) := by
  have lap := commitLog_lap contents inv.lap phase
  obtain ⟨low,positive,high,apart⟩ := allocated_safe inv.lap phase
  refine ⟨lap,?_,?_,inv.pending.congr _ rfl rfl rfl rfl rfl (fun versions => ⟨versions,rfl⟩),inv.version,
    fun _ other => by cases other⟩
  · intro tx member
    have old := lap_bounds inv.lap tx
    simp only [commitLog] at *
    rcases mem_append.mp member with member | member
    · -- an older header lies outside the blocks just written
      have away := apart tx member
      have count := (old member).2.1
      simp only [Segment.Apart,Segment.stop] at away
      rw [if_neg (by omega),if_neg (by omega)]
      exact inv.headers tx member
    · rw [mem_singleton] at member
      subst member
      simp only [State.begin,State.size,gLogSize] at low high
      rw [if_pos rfl,Nat.mod_eq_of_lt (by omega)]
  · have bound := lap_length inv.lap
    have count := inv.count
    simp only [commitLog,length_append,length_singleton,gLogSize] at *
    omega

theorem kernfs_inv (contents : LogArea) (inv : Inv s)
    (sent : s.digest = .sent request) :
    ∃ area answer, digestLogs contents request.startBlkno request.endBlkno request.nHdrs s.log request.startDigest =
      some (area,answer) ∧ Inv { s with log := area,digest := .done answer } := by
  have pending := inv.pending
  rw [Pending,sent] at pending
  obtain ⟨covered,rest,next,rotated,split,hdrs,count,follows,coverage⟩ := pending
  have apart := lap_apart inv.lap
  have bounds := lap_bounds inv.lap
  have member : ∀ tx ∈ covered, tx ∈ s.undigested := fun tx member => by rw [split]; simp [member]
  obtain ⟨area,walk,frame⟩ := digestLogs_follows contents s.log follows (fun tx inside => inv.headers tx (member tx inside))
    (by rw [split] at apart; exact (pairwise_append.mp apart).1) (fun tx inside => (bounds tx (member tx inside)).2.1)
  rw [← hdrs] at walk
  refine ⟨area,_,walk,?_,?_,inv.count,?_,inv.version,inv.positive⟩
  · rcases inv.lap with plain | ⟨upper,lower,top,wrapped⟩ | stuck
    · exact .inl { plain with }
    · exact .inr (.inl ⟨upper,lower,top,{ wrapped with }⟩)
    · have idle := stuck.idle
      rw [sent] at idle
      cases idle
  · intro tx inside
    change area tx.first = _
    rw [frame tx.first,inv.headers tx inside]
    -- headers are never inside the body of another transaction
    intro other held
    have positive := (bounds tx inside).2.1
    by_cases same : other = tx
    · subst same
      omega
    · have away := apart.forall (member other held) inside same
      simp only [Segment.Apart,Segment.stop] at *
      omega
  · exact ⟨covered,rest,split,hdrs,count,rfl,coverage.congr rfl rfl (fun versions => ⟨versions,rfl⟩)⟩

theorem filter_covered (apart : (covered ++ rest).Pairwise Segment.Apart)
    (counts : ∀ tx ∈ covered ++ rest, 0 < tx.count) :
    (covered ++ rest).filter (fun tx => decide (tx.first ∉ covered.map Segment.first)) = rest := by
  rw [filter_append]
  have gone : covered.filter (fun tx => decide (tx.first ∉ covered.map Segment.first)) = [] := by
    simp only [filter_eq_nil_iff]
    intro tx member
    simp only [decide_eq_true_eq,not_not]
    exact mem_map_of_mem member
  have kept : rest.filter (fun tx => decide (tx.first ∉ covered.map Segment.first)) = rest := by
    rw [filter_eq_self]
    intro tx member
    simp only [decide_eq_true_eq,mem_map,not_exists,not_and]
    intro other inside same
    have away := (pairwise_append.mp apart).2.2 other inside tx member
    have first := counts other (by simp [inside])
    have second := counts tx (by simp [member])
    simp only [Segment.Apart,Segment.stop] at away
    omega
  rw [gone,kept,nil_append]

theorem wrapped_cut (wrapped : Wrapped s upper lower top)
    (split : s.undigested = covered ++ rest) (chain : Chain s.startBlk covered next) :
    ∃ later, upper = covered ++ later ∧ rest = later ++ lower := by
  rcases append_eq_append_iff.mp (wrapped.split.symm.trans split) with ⟨more,grown,young⟩ | ⟨later,old,young⟩
  · cases more with
    | nil => exact ⟨[],by simp [grown],by simpa using young.symm⟩
    | cons tx others =>
      have across := chain_suffix (grown ▸ chain) wrapped.older
      have younger := wrapped.younger
      have start := wrapped.start
      rw [young] at younger
      have high := across.1
      have low := younger.1
      omega
  · exact ⟨later,old,young⟩

theorem advance_plain {covered rest : List Tx} {next : Nat} (lap : Lap s) (busy : s.digest ≠ .idle)
    (split : s.undigested = covered ++ rest) (chain : Chain s.startBlk covered next) (left : Nat) :
    Lap { s with startBlk := next,startDigest := next,nDigest := left,undigested := rest,digest := .idle } := by
  have order := chain_le chain
  rcases lap with plain | ⟨upper,lower,top,wrapped⟩ | stuck
  · have whole := plain.chain
    have stale := plain.stale
    rw [split,append_assoc] at whole stale
    exact .inl { plain with
      low := Nat.le_trans plain.low order
      chain := chain_suffix whole chain
      stale := fun tx member => stale tx (mem_append_right _ member) }
  · obtain ⟨later,old,young⟩ := wrapped_cut wrapped split chain
    have older := wrapped.older
    rw [old] at older
    exact .inr (.inl ⟨later,lower,top,{ wrapped with
      split := young
      low := Nat.le_trans wrapped.low order
      older := chain_suffix older chain
      below := Nat.le_trans wrapped.below order
      room := fun free => Nat.le_trans (wrapped.room free) order }⟩)
  · exact absurd stuck.idle busy

theorem wrapped_of_versions (lap : Lap s) (busy : s.digest ≠ .idle)
    (versions : s.availVersion = s.startVersion + 1) : ∃ upper lower top, Wrapped s upper lower top := by
  rcases lap with plain | wrapped | stuck
  · have same := plain.versions
    omega
  · exact wrapped
  · exact absurd stuck.idle busy

theorem advance_crossing {rest : List Tx} {next : Nat} (lap : Lap s) (busy : s.digest ≠ .idle)
    (version : s.availVersion < 2 ^ 32) (versions : s.availVersion = s.startVersion + 1)
    (split : s.undigested = (upper ++ lower) ++ rest) (older : Chain s.startBlk upper (s.logEnd + 1))
    (younger : Chain s.begin lower next) (left : Nat) :
    Lap { s with
      startBlk := next,startDigest := next,startVersion := (s.startVersion + 1) % 2 ^ 32,logEnd := 0
      nDigest := left,undigested := rest,digest := .idle } := by
  obtain ⟨upper',lower',top,wrapped⟩ := wrapped_of_versions lap busy versions
  have cut := chain_cut (wrapped.split.symm.trans (split.trans (append_assoc _ _ _))) wrapped.older older
  have young := wrapped.younger
  rw [cut.2] at young
  have chain : Chain next (rest ++ s.phase.held) s.nextAvailHeader :=
    chain_append.mpr ⟨top,chain_suffix young younger,wrapped.held⟩
  have low := chain_le younger
  refine .inl ⟨?_,low,chain,wrapped.high,?_⟩
  · simp only
    rw [Nat.mod_eq_of_lt (by omega),versions]
  · intro tx member
    have bounds := chain_bounds chain tx member
    simp only [State.begin,Segment.stop] at *
    omega

theorem advance_turned {rest : List Tx} (lap : Lap s) (busy : s.digest ≠ .idle)
    (versions : s.availVersion = s.startVersion + 1) (start : s.startBlk = s.begin)
    (split : s.undigested = [tx] ++ rest) (chain : Chain s.begin [tx] (s.logEnd + 1)) (left : Nat) :
    Lap { s with
      startBlk := s.begin,startDigest := s.begin,nDigest := left,undigested := rest,digest := .idle } := by
  obtain ⟨upper,lower,top,wrapped⟩ := wrapped_of_versions lap busy versions
  have cut := chain_cut (wrapped.split.symm.trans split) wrapped.older (start ▸ chain)
  have below := wrapped.below
  have floor := chain_le wrapped.younger
  have flat : top = s.begin := by omega
  subst flat
  have none : rest = [] := by rw [← cut.2]; exact chain_empty wrapped.younger
  have ahead := wrapped.ahead
  have retrying : s.phase.retrying = true := by
    cases flag : s.phase.retrying with
    | true => rfl
    | false =>
      have room := wrapped.room flag
      omega
  exact .inr (.inr ⟨versions,none,rfl,ahead,retrying,rfl⟩)

theorem makeDigestRequestAsync_phase (s : State) : (makeDigestRequestAsync s).phase = s.phase := by
  unfold makeDigestRequestAsync
  split
  · exact (moveHead_frame s).2.2.2.2
  · rfl

structure Responded (s : State) (answer : DigestAnswer) (next : State) : Prop where
  place : next.logSbBlk = s.logSbBlk
  tail : next.nextAvailHeader = s.nextAvailHeader
  lap : next.availVersion = s.availVersion
  phase : next.phase = s.phase
  head : next.startBlk = answer.nextHdr
  left : next.undigested = s.undigested.filter fun tx => decide (tx.first ∉ answer.visited)
  version : next.startVersion = if answer.rotated then (s.startVersion + 1) % 2 ^ 32 else s.startVersion
  idle : next.digest = .idle

theorem handleDigestResponse_frame {next : State} {answer : DigestAnswer} (handled : handleDigestResponse answer s = some next) :
    Responded s answer next := by
  unfold handleDigestResponse at handled
  obtain ⟨_,same⟩ := Option.ite_none_right_eq_some.mp handled
  cases same
  cases rotated : answer.rotated with
  | true | false => exact ⟨rfl,rfl,rfl,rfl,rfl,rfl,by rw [rotated]; rfl,rfl⟩

theorem undigested_kept (lap : Lap s) (split : s.undigested = covered ++ rest) :
    s.undigested.filter (fun tx => decide (tx.first ∉ covered.map Segment.first)) = rest := by
  have apart := lap_apart lap
  have bounds := lap_bounds lap
  rw [split] at apart bounds ⊢
  exact filter_covered apart fun tx member => (bounds tx member).2.1

theorem respond_inv {next : State} {answer : DigestAnswer} (inv : Inv s) (done : s.digest = .done answer)
    (handled : handleDigestResponse answer s = some next) : Inv next := by
  have pending := inv.pending
  rw [Pending,done] at pending
  obtain ⟨covered,rest,split,digested,count,visited,coverage⟩ := pending
  have busy : s.digest ≠ .idle := by rw [done]; intro other; cases other
  have length := lap_length inv.lap
  have kept : s.undigested.filter (fun tx => decide (tx.first ∉ answer.visited)) = rest := by
    rw [visited]
    exact undigested_kept inv.lap split
  have left : (s.nDigest + 2 ^ 32 - answer.nDigested % 2 ^ 32) % 2 ^ 32 = rest.length := by
    rw [split] at length
    have total := inv.count
    rw [split] at total
    simp only [length_append,gLogSize] at total length
    rw [digested]
    omega
  have headers : ∀ tx ∈ rest, s.log tx.first = ⟨tx.count,lhCommitMagic⟩ :=
    fun tx member => inv.headers tx (by rw [split]; simp [member])
  unfold handleDigestResponse at handled
  rw [if_pos (count.trans digested.symm)] at handled
  cases Option.some.inj handled
  rcases answer with ⟨nDigested,nextHdr,rotated,visitedHdrs⟩
  have version := inv.version
  cases coverage with
  | plain chain =>
    have lap := advance_plain inv.lap busy split chain rest.length
    simp only [Bool.false_eq_true,if_false] at *
    rw [kept,left]
    exact ⟨lap,headers,rfl,trivial,version,inv.positive⟩
  | turned versions start chain =>
    have lap := advance_turned inv.lap busy versions start split chain rest.length
    simp only [Bool.false_eq_true,if_false] at *
    rw [kept,left]
    exact ⟨lap,headers,rfl,trivial,version,inv.positive⟩
  | crossing versions _ older younger =>
    have same : (s.startVersion + 1) % 2 ^ 32 = s.availVersion := by
      rw [Nat.mod_eq_of_lt (by omega),versions]
    have lap := advance_crossing inv.lap busy version versions split older younger rest.length
    simp only [if_true,same] at *
    rw [kept,left]
    exact ⟨lap,headers,rfl,trivial,version,inv.positive⟩

theorem young_below {upper lower : List Tx} (wrapped : Wrapped s upper lower top)
    (member : tx ∈ lower) : tx.first < s.startBlk := by
  obtain ⟨_,count,high⟩ := chain_bounds wrapped.younger tx member
  have below := wrapped.below
  simp only [Segment.stop] at high
  omega

theorem startVersion_le (lap : Lap s) : s.startVersion ≤ s.availVersion := by
  rcases lap with plain | ⟨_,_,_,wrapped⟩ | stuck
  · exact Nat.le_of_eq plain.versions.symm
  · exact wrapped.versions ▸ Nat.le_succ _
  · exact stuck.versions ▸ Nat.le_succ _

theorem coverage_forward {next : Nat}
    (coverage : Coverage s covered next rotated) :
    (rotated = false ∧ s.startBlk ≤ next) ∨ (rotated = true ∧ s.availVersion = s.startVersion + 1) := by
  cases coverage with
  | plain chain => exact .inl ⟨rfl,chain_le chain⟩
  | crossing versions _ _ _ => exact .inr ⟨rfl,versions⟩
  | turned _ start _ => exact .inl ⟨rfl,Nat.le_of_eq start⟩

theorem passed_young (lap : Lap s) (ahead : s.startVersion < s.availVersion) (passed : s.logEnd < s.startBlk) :
    ∀ tx ∈ s.undigested, tx.first < s.startBlk := by
  intro tx listed
  rcases lap with plain | ⟨upper,lower,top,wrapped⟩ | stuck
  · have same := plain.versions
    omega
  · have older := wrapped.older
    have reached := chain_le older
    rw [show s.startBlk = s.logEnd + 1 by omega] at older
    rw [wrapped.split,chain_empty older,nil_append] at listed
    exact young_below wrapped listed
  · rw [stuck.empty] at listed
    cases listed

theorem left_above {covered rest : List Tx} {nextHdr : Nat}
    (coverage : Coverage s covered nextHdr rotated) (lap : Lap s) (busy : s.digest ≠ .idle) (split : s.undigested = covered ++ rest)
    (versions : s.startVersion < s.availVersion) (inside : tx ∈ rest) (above : s.startBlk ≤ tx.first) :
    rotated = false ∧ nextHdr ≤ tx.first := by
  obtain ⟨upper,lower,top,wrapped⟩ : ∃ upper lower top, Wrapped s upper lower top := by
    rcases lap with plain | wrapped | stuck
    · have same := plain.versions
      omega
    · exact wrapped
    · exact absurd stuck.idle busy
  cases coverage with
  | plain chain =>
    obtain ⟨later,upperSplit,restSplit⟩ := wrapped_cut wrapped split chain
    rw [restSplit] at inside
    rcases mem_append.mp inside with inside | inside
    · have older := wrapped.older
      rw [upperSplit] at older
      exact ⟨rfl,(chain_bounds (chain_suffix older chain) tx inside).1⟩
    · exact absurd (young_below wrapped inside) (Nat.not_lt.mpr above)
  | turned _ start _ => exact ⟨rfl,start ▸ above⟩
  | crossing _ _ upperChain _ =>
    have cut := chain_cut (wrapped.split.symm.trans (split.trans (append_assoc _ _ _))) wrapped.older upperChain
    have young : tx ∈ lower := by rw [cut.2]; exact mem_append_right _ inside
    exact absurd (young_below wrapped young) (Nat.not_lt.mpr above)

theorem step_inv (threshold : Nat) (s : State) (action : Action) (next : State) (inv : Inv s)
    (ok : RingOk threshold s action) (stepped : step threshold s action = some next) : Inv next := by
  cases step_sound stepped with
  | request => exact makeDigestRequestAsync_inv inv ok
  | enterFull idle above =>
    have phase := (makeDigestRequestAsync_phase s).trans idle
    exact (makeDigestRequestAsync_inv inv (ok above)).setPhase (by rw [phase]; rfl) (by rw [phase]; rfl)
      (fun n same => by cases same; omega)
  | enter idle =>
    exact inv.setPhase (by rw [idle]; rfl) (by rw [idle]; rfl) (fun n same => by cases same; omega)
  | reserve phase =>
    rw [RingOk,phase] at ok
    exact reserveBlocks_inv inv phase ok
  | checkLow phase low =>
    have ahead := (of_decide_eq_true low).1
    have kept := (makeDigestRequestAsync_phase s).trans phase
    exact (makeDigestRequestAsync_inv inv (fun same => by omega)).setPhase (by rw [kept]; rfl) (by rw [kept]; rfl)
      (fun n same => by cases same)
  | check phase | waited phase | retry phase =>
    exact inv.setPhase (by rw [phase]; rfl) (by rw [phase]; rfl) (fun n same => by cases same)
  | recheck phase free => exact recheck_inv inv phase free
  | commit phase => exact commitLog_inv _ inv phase
  | kernfs sent walk =>
    obtain ⟨area,answer,same,kept⟩ := kernfs_inv _ inv sent
    cases Option.some.inj (walk.symm.trans same)
    exact kept
  | respond done handled => exact respond_inv inv done handled

theorem initLog_inv (logSbBlk : Nat) (log : LogArea) : Inv (initLog logSbBlk log) := by
  refine ⟨.inl ⟨rfl,Nat.le_refl _,rfl,?_,fun tx member => (by cases member)⟩,fun tx member => (by cases member),rfl,
    trivial,by simp [initLog],fun n same => (by cases same)⟩
  simp only [initLog,State.size,gLogSize]
  omega

theorem reached_inv (threshold logSbBlk : Nat) (log : LogArea) (actions : List Action) (s : State)
    (ok : Guarded (step threshold) (RingOk threshold) (initLog logSbBlk log) actions)
    (ran : run (step threshold) (initLog logSbBlk log) actions = some s) : Inv s :=
  invariant_run (step threshold) (RingOk threshold) Inv (step_inv threshold) _ s actions (initLog_inv logSbBlk log) ok ran

theorem makeDigestRequestAsync_sends (idle : s.digest = .idle)
    (sent : (makeDigestRequestAsync s).digest = .sent request) :
    request.nHdrs = 100 * (makeDigestRequestAsync s).nDigest % 2 ^ 32 / 100 := by
  unfold makeDigestRequestAsync at *
  split at sent
  · rename_i ready
    rw [if_pos ready]
    cases sent
    rfl
  · rw [idle] at sent
    cases sent

theorem step_sends {next : State} {action : Action}
    (stepped : step threshold s action = some next) (idle : s.digest = .idle) (sent : next.digest = .sent request) :
    request.nHdrs = 100 * next.nDigest % 2 ^ 32 / 100 := by
  have same : s.digest = .sent request → False := fun other => by rw [idle] at other; cases other
  cases step_sound stepped with
  | request | enterFull _ _ | checkLow _ _ => exact makeDigestRequestAsync_sends idle sent
  | reserve phase => exact (same ((wrapTail_frame _ s).2.2.2.1.symm.trans sent)).elim
  | enter _ | check _ | waited _ | retry _ | recheck _ _ | commit _ => exact (same sent).elim
  | kernfs busy _ | respond busy _ => rw [idle] at busy; cases busy

theorem step_logSbBlk {next : State} {action : Action}
    (stepped : step threshold s action = some next) : next.logSbBlk = s.logSbBlk := by
  have requested : (makeDigestRequestAsync s).logSbBlk = s.logSbBlk := by
    unfold makeDigestRequestAsync makeDigestRequestSync moveHead
    split_ifs <;> rfl
  cases step_sound stepped with
  | request | enterFull _ _ | checkLow _ _ => exact requested
  | reserve phase => exact (wrapTail_frame _ s).2.2.2.2.2.2
  | enter _ | check _ | waited _ | retry _ | recheck _ _ | commit _ | kernfs _ _ => rfl
  | respond done handled => exact (handleDigestResponse_frame handled).place

theorem reached_logSbBlk {logSbBlk : Nat} {log : LogArea} {actions : List Action}
    (ran : run (step threshold) (initLog logSbBlk log) actions = some s) : s.logSbBlk = logSbBlk := by
  refine invariant_run (step threshold) (fun _ _ => True) (fun s => s.logSbBlk = logSbBlk) ?_ _ s actions rfl ?_ ran
  · intro s action next place _ stepped
    exact (step_logSbBlk stepped).trans place
  · exact guarded_true _ _ _

def blankLog : LogArea := fun _ => ⟨0,0⟩

theorem request_visits_undigested (threshold logSbBlk : Nat) (log : LogArea) (actions : List Action) (action : Action)
    (s next : State) (request : DigestRequest)
    (ok : Guarded (step threshold) (RingOk threshold) (initLog logSbBlk log) (actions ++ [action]))
    (ran : run (step threshold) (initLog logSbBlk log) actions = some s)
    (stepped : step threshold s action = some next) (idle : s.digest = .idle) (sent : next.digest = .sent request)
    (contents : LogArea) :
    ∃ area answer,
      digestLogs contents request.startBlkno request.endBlkno request.nHdrs next.log request.startDigest =
        some (area,answer) ∧
      answer.visited = next.undigested.map Segment.first := by
  obtain ⟨early,last⟩ := guarded_append (step threshold) (RingOk threshold) _ s actions [action] ok ran
  have inv := step_inv threshold s action next (reached_inv threshold logSbBlk log actions s early ran) last.1 stepped
  have pending := inv.pending
  rw [Pending,sent] at pending
  obtain ⟨covered,rest,hdr,rotated,split,hdrs,_,follows,_⟩ := pending
  have all : covered.length = next.undigested.length := by
    rw [← hdrs,step_sends stepped idle sent,full_request inv]
  have none : rest = [] := by
    rw [split,length_append] at all
    exact length_eq_zero_iff.mp (by omega)
  rw [none,append_nil] at split
  subst split
  obtain ⟨area,walk,_⟩ := digestLogs_follows contents next.log follows inv.headers (lap_apart inv.lap)
    (fun tx member => (lap_bounds inv.lap tx member).2.1)
  rw [← hdrs] at walk
  exact ⟨area,_,walk,rfl⟩

def commitBlocks (blocks : Nat) : List Action := [.enter blocks,.reserve,.check,.recheck,.commit blankLog]
def commits (count blocks : Nat) : List Action := (List.replicate count (commitBlocks blocks)).flatten
def digestAll : List Action := [.request,.kernfs blankLog,.respond]
def digestedCommits (count : Nat) : List Action := (List.replicate count (commits 2 4095 ++ digestAll)).flatten

-- Writes of at most 16 MB. The last one starts the second lap.
def wrappingRun : List Action := digestedCommits 3 ++ commitBlocks 4095 ++ digestAll ++ commitBlocks 4096

theorem request_visits_undigested_wrapped : ∃ s next request,
    run (step 30) (initLog 616960 blankLog) wrappingRun = some s ∧ step 30 s .request = some next ∧
    next.digest = .sent request ∧
    ∃ area answer,
      digestLogs blankLog request.startBlkno request.endBlkno request.nHdrs next.log request.startDigest =
        some (area,answer) ∧
      answer.visited = next.undigested.map Segment.first := by
  obtain ⟨s,ran,idle,next,stepped,sent⟩ : ∃ s, run (step 30) (initLog 616960 blankLog) wrappingRun = some s ∧ s.digest = .idle ∧
      ∃ next, step 30 s .request = some next ∧ next.digest = .sent ⟨1,616961,616961,645632⟩ := by decide +kernel
  exact ⟨s,next,_,ran,stepped,sent,
    request_visits_undigested 30 616960 blankLog wrappingRun .request s next _ (by decide +kernel) ran stepped idle sent blankLog⟩

-- The same run goes on: the head moved over the wrap point but `logEnd` stayed, and the last but one transaction ends
-- there.
def staleEndRun : List Action :=
  wrappingRun ++ digestAll ++ digestedCommits 2 ++ commitBlocks 4095 ++ digestAll ++ commitBlocks 4094 ++ commitBlocks 99

theorem stale_end_misleads_walk : ∃ s next request area answer,
    run (step 30) (initLog 616960 blankLog) staleEndRun = some s ∧ s.digest = .idle ∧
    step 30 s .request = some next ∧ next.digest = .sent request ∧
    digestLogs blankLog request.startBlkno request.endBlkno request.nHdrs next.log request.startDigest =
      some (area,answer) ∧
    answer.visited = [641538,616961] ∧ next.undigested.map Segment.first = [641538,645633] := by
  obtain ⟨s,ran,idle,next,stepped,sent,waiting,area,answer,walked,visited⟩ :
      ∃ s, run (step 30) (initLog 616960 blankLog) staleEndRun = some s ∧ s.digest = .idle ∧
        ∃ next, step 30 s .request = some next ∧ next.digest = .sent ⟨2,641538,616961,645632⟩ ∧
          next.undigested.map Segment.first = [641538,645633] ∧
          ∃ area answer, digestLogs blankLog 616961 645632 2 next.log 641538 = some (area,answer) ∧
            answer.visited = [641538,616961] := by decide +kernel
  exact ⟨s,next,_,area,answer,ran,idle,stepped,sent,walked,visited,waiting⟩

theorem logAlloc_keeps_undigested (threshold logSbBlk : Nat) (log : LogArea) (actions : List Action) (s : State)
    (hdr nrBlocks : Nat) (ok : Guarded (step threshold) (RingOk threshold) (initLog logSbBlk log) actions)
    (ran : run (step threshold) (initLog logSbBlk log) actions = some s) (phase : s.phase = .allocated hdr nrBlocks) :
    logSbBlk < hdr ∧ hdr + nrBlocks ≤ logSbBlk + gLogSize ∧
    ∀ tx ∈ s.undigested, ∀ b, tx.Holds b → ¬(hdr ≤ b ∧ b < hdr + nrBlocks) := by
  have place := reached_logSbBlk ran
  obtain ⟨low,_,high,apart⟩ := allocated_safe (reached_inv threshold logSbBlk log actions s ok ran).lap phase
  simp only [State.begin,State.size,place] at low high
  refine ⟨low,high,?_⟩
  intro tx member b held inside
  have away := apart tx member
  simp only [Segment.Apart,Segment.Holds,Segment.stop] at *
  omega

theorem logAlloc_keeps_undigested_wrapped : ∃ s, run (step 30) (initLog 616960 blankLog)
      (wrappingRun ++ [.enter 999,.reserve,.check,.recheck]) = some s ∧
    s.undigested = [⟨616961,4097⟩] ∧ s.phase = .allocated 621058 1000 ∧
    616960 < 621058 ∧ 621058 + 1000 ≤ 616960 + gLogSize ∧
    ∀ tx ∈ s.undigested, ∀ b, tx.Holds b → ¬(621058 ≤ b ∧ b < 621058 + 1000) := by
  obtain ⟨s,ran,waiting,phase⟩ : ∃ s, run (step 30) (initLog 616960 blankLog)
      (wrappingRun ++ [.enter 999,.reserve,.check,.recheck]) = some s ∧
    s.undigested = [⟨616961,4097⟩] ∧ s.phase = .allocated 621058 1000 := by decide +kernel
  exact ⟨s,ran,waiting,phase,logAlloc_keeps_undigested 30 616960 blankLog _ s 621058 1000 (by decide +kernel) ran phase⟩

-- A second wrap while the head is on the lap before, at a transaction of 3 blocks: `log_alloc` returns blocks of a
-- transaction that was never digested.
def firstLap : List Action :=
  commits 7 4096 ++ commitBlocks 2455 ++ [.kernfs blankLog,.respond] ++ digestAll ++ commitBlocks 1 ++ [.request]

def secondLap : List Action :=
  commits 6 4096 ++ [.enter 4096,.reserve,.check,.kernfs blankLog,.respond,.waited,.recheck,.commit blankLog]

def doubleWrapRun : List Action := firstLap ++ commitBlocks 2 ++ secondLap ++ [.enter 4096,.reserve,.check,.recheck]

theorem double_wrap_overlaps : ∃ s, run (step 30) (initLog 616960 blankLog) doubleWrapRun = some s ∧
    s.phase = .allocated 616961 4097 ∧ ⟨648098,3⟩ ∈ s.undigested ∧ ⟨616961,4097⟩ ∈ s.undigested := by decide +kernel

end Assise.LogRing
