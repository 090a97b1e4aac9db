import Mathlib.Tactic.Choose
import Assise.LogRingSafety
import Assise.Lib.Progress

-- Whether `log_alloc` returns. Its retry loop asks for a digest only while the tail is below the head, and tries again
-- while the tail is above it.
namespace Assise.LogRing
open Lib.Runs Lib.Segments Lib.Progress

def Alone : Action → Prop
  | .check | .waited | .recheck | .kernfs _ | .respond => True
  | .request | .enter _ | .reserve | .commit _ => False

def AllocStep (threshold : Nat) (s t : State) : Prop := ∃ action, Alone action ∧ step threshold s action = some t

def InLoop (s : State) : Prop := s.phase.retrying = true

-- The loop does not get stuck in a state, and in every run in which KernFS answers what it is asked the call returns.
structure Returns (threshold : Nat) (s : State) : Prop where
  moves : ∀ t, Relation.ReflTransGen (AllocStep threshold) s t → InLoop t → ∃ u, AllocStep threshold t u
  returns : ∀ trace, Trace InLoop (AllocStep threshold) s trace → (∀ i, ∃ j, i ≤ j ∧ ((trace j).digest = .idle ∨ ¬ InLoop (trace j))) →
    ∃ i hdr nrBlocks, (trace i).phase = .allocated hdr nrBlocks

def answerOf (s : State) : Option DigestAnswer :=
  match s.digest with
  | .idle => none
  | .sent request =>
    (digestLogs s.log request.startBlkno request.endBlkno request.nHdrs s.log request.startDigest).map Prod.snd
  | .done answer => some answer

def Free (s : State) : Prop := s.startVersion = s.availVersion ∨ s.nextAvailHeader ≤ s.startBlk

def Frees (s : State) (answer : DigestAnswer) : Prop := answer.rotated = true ∨ s.nextAvailHeader ≤ answer.nextHdr

def Serviceable (s : State) : Prop := Free s ∨ ∃ answer ∈ answerOf s, Frees s answer

instance (s : State) : Decidable (Free s) := inferInstanceAs (Decidable (_ ∨ _))

instance (s : State) : DecidablePred (Frees s) := fun _ => inferInstanceAs (Decidable (_ ∨ _))

instance (s : State) : Decidable (Serviceable s) := inferInstanceAs (Decidable (_ ∨ ∃ _ ∈ _,Frees s _))

inductive AllocMove (s : State) : State → Prop where
  | low {hdr nrBlocks : Nat} (phase : s.phase = .reserved hdr nrBlocks) (low : lowSpace s = true) :
      AllocMove s { makeDigestRequestAsync s with phase := .waiting hdr nrBlocks }
  | roomy {hdr nrBlocks : Nat} (phase : s.phase = .reserved hdr nrBlocks) (room : lowSpace s = false) :
      AllocMove s { s with phase := .tested hdr nrBlocks }
  | waited {hdr nrBlocks : Nat} (phase : s.phase = .waiting hdr nrBlocks) (idle : s.digest = .idle) :
      AllocMove s { s with phase := .tested hdr nrBlocks }
  | retry {hdr nrBlocks : Nat} (phase : s.phase = .tested hdr nrBlocks) (past : tailPastHead s = true) :
      AllocMove s { s with phase := .reserved hdr nrBlocks }
  | done {hdr nrBlocks : Nat} (phase : s.phase = .tested hdr nrBlocks) (free : tailPastHead s = false) :
      AllocMove s { s with phase := .allocated hdr nrBlocks }
  | kernfs {contents area : LogArea} {request : DigestRequest} {answer : DigestAnswer} (sent : s.digest = .sent request)
      (walk : digestLogs contents request.startBlkno request.endBlkno request.nHdrs s.log request.startDigest = some (area,answer)) :
      AllocMove s { s with log := area,digest := .done answer }
  | respond {answer : DigestAnswer} {t : State} (done : s.digest = .done answer) (handled : handleDigestResponse answer s = some t) :
      AllocMove s t

theorem allocStep_iff (threshold : Nat) {s t : State} : AllocStep threshold s t ↔ AllocMove s t := by
  constructor
  · rintro ⟨action,alone,stepped⟩
    cases action with
    | request => cases alone
    | enter _ => cases alone
    | reserve => cases alone
    | commit _ => cases alone
    | check =>
      simp only [step] at stepped
      split at stepped
      · rename_i phase
        split at stepped
        · rename_i low
          cases stepped
          exact .low phase low
        · rename_i room
          cases stepped
          exact .roomy phase (Bool.eq_false_iff.mpr room)
      · cases stepped
    | waited =>
      simp only [step] at stepped
      split at stepped
      · rename_i phase
        obtain ⟨idle,same⟩ := Option.ite_none_right_eq_some.mp stepped
        cases same
        exact .waited phase idle
      · cases stepped
    | recheck =>
      simp only [step] at stepped
      split at stepped
      · rename_i phase
        split at stepped
        · rename_i past
          cases stepped
          exact .retry phase past
        · rename_i free
          cases stepped
          exact .done phase (Bool.eq_false_iff.mpr free)
      · cases stepped
    | kernfs contents =>
      cases step_sound stepped with
      | kernfs sent walk => exact .kernfs sent walk
    | respond =>
      cases step_sound stepped with
      | respond done handled => exact .respond done handled
  · intro move
    cases move with
    | low phase low => exact ⟨.check,trivial,by simp only [step,phase,low,if_true]⟩
    | roomy phase room => exact ⟨.check,trivial,by simp [step,phase,room]⟩
    | waited phase idle => exact ⟨.waited,trivial,by simp [step,phase,idle]⟩
    | retry phase past => exact ⟨.recheck,trivial,by simp [step,phase,past]⟩
    | done phase free => exact ⟨.recheck,trivial,by simp [step,phase,free]⟩
    | @kernfs contents area request answer sent walk => exact ⟨.kernfs contents,trivial,by simp [step,sent,walk]⟩
    | respond done handled => exact ⟨.respond,trivial,by simp [step,done,handled]⟩

section Moves
variable {s t : State}

theorem Inv.versions (inv : Inv s) : s.availVersion = s.startVersion ∨ s.availVersion = s.startVersion + 1 := by
  rcases inv.lap with plain | ⟨_,_,_,wrapped⟩ | stuck
  · exact .inl plain.versions
  · exact .inr wrapped.versions
  · exact .inr stuck.versions

theorem Inv.free_iff (inv : Inv s) : tailPastHead s = false ↔ Free s := by
  have versions := inv.versions
  unfold tailPastHead Free
  rw [decide_eq_false_iff_not]
  omega

theorem AllocMove.inv (inv : Inv s) (move : AllocMove s t) : Inv t := by
  obtain ⟨action,alone,stepped⟩ := (allocStep_iff 0).mpr move
  refine step_inv 0 s action t inv ?_ stepped
  cases action with
  | request => cases alone
  | enter _ => cases alone
  | reserve => cases alone
  | commit _ => cases alone
  | check => trivial
  | waited => trivial
  | recheck => trivial
  | kernfs _ => trivial
  | respond => trivial

theorem Inv.walk (inv : Inv s) {request : DigestRequest} (sent : s.digest = .sent request) :
    ∃ answer, ∀ contents, ∃ area,
      digestLogs contents request.startBlkno request.endBlkno request.nHdrs s.log request.startDigest = some (area,answer) := by
  have pending := inv.pending
  rw [Pending,sent] at pending
  obtain ⟨covered,rest,next,rotated,split,hdrs,_,follows,_⟩ := pending
  have inside : ∀ tx ∈ covered, tx ∈ s.undigested := fun tx member => by rw [split]; exact List.mem_append_left _ member
  have apart : covered.Pairwise Segment.Apart := by
    have all := lap_apart inv.lap
    rw [split] at all
    exact (List.pairwise_append.mp all).1
  refine ⟨⟨covered.length,next,rotated,covered.map Segment.first⟩,fun contents => ?_⟩
  obtain ⟨area,walk,_⟩ := digestLogs_follows contents s.log follows (fun tx member => inv.headers tx (inside tx member)) apart
    fun tx member => (lap_bounds inv.lap tx (inside tx member)).2.1
  rw [hdrs]
  exact ⟨area,walk⟩

variable {answer : DigestAnswer}

theorem Inv.answer_kernfs (inv : Inv s) {contents area : LogArea} {request : DigestRequest}
    (sent : s.digest = .sent request)
    (walk : digestLogs contents request.startBlkno request.endBlkno request.nHdrs s.log request.startDigest = some (area,answer)) :
    answerOf s = some answer := by
  obtain ⟨only,each⟩ := inv.walk sent
  obtain ⟨area',here⟩ := each contents
  obtain ⟨_,own⟩ := each s.log
  have same : (area,answer) = (area',only) := Option.some.inj (walk.symm.trans here)
  unfold answerOf
  rw [sent]
  dsimp only
  rw [own,Option.map_some,(Prod.mk.inj same).2]

theorem Inv.free_respond (inv : Inv s) (done : s.digest = .done answer)
    (handled : handleDigestResponse answer s = some t) :
    t.phase = s.phase ∧ t.digest = .idle ∧ (Free t ↔ Free s ∨ Frees s answer) := by
  have pending := inv.pending
  have version := inv.version
  obtain ⟨nDigested,nextHdr,rotated,visited⟩ := answer
  rw [Pending,done] at pending
  obtain ⟨covered,rest,_,_,_,_,coverage⟩ := pending
  unfold handleDigestResponse at handled
  obtain ⟨_,same⟩ := Option.ite_none_right_eq_some.mp handled
  cases same
  unfold Free Frees
  dsimp only at coverage ⊢
  cases coverage with
  | plain chain =>
    have further := chain_le chain
    refine ⟨rfl,rfl,?_⟩
    simp only [Bool.false_eq_true,if_false,false_or]
    omega
  | crossing versions some older younger =>
    refine ⟨rfl,rfl,?_⟩
    simp only [if_true,true_or,or_true,iff_true]
    left
    omega
  | turned versions start chain =>
    refine ⟨rfl,rfl,?_⟩
    simp only [Bool.false_eq_true,if_false,false_or,start]
    omega

theorem serviceable_idle (idle : s.digest = .idle) : Serviceable s ↔ Free s := by
  unfold Serviceable answerOf
  rw [idle]
  simp

theorem serviceable_answer (answered : answerOf s = some answer) : Serviceable s ↔ Free s ∨ Frees s answer := by
  unfold Serviceable
  rw [answered]
  simp

theorem Inv.free_request (inv : Inv s) (low : lowSpace s = true) (free : Free s) : Free (makeDigestRequestAsync s) := by
  have versions := inv.versions
  have version := inv.version
  have behind : s.startVersion < s.availVersion := (of_decide_eq_true low).1
  unfold makeDigestRequestAsync makeDigestRequestSync moveHead
  split
  · split
    · left
      dsimp only
      omega
    · exact free
  · exact free

theorem request_busy (busy : s.digest ≠ .idle) : makeDigestRequestAsync s = s := if_neg fun ready => busy ready.1

theorem AllocMove.free (inv : Inv s) (free : Free s) (move : AllocMove s t) : Free t := by
  cases move with
  | low phase low => exact inv.free_request low free
  | roomy _ _ => exact free
  | waited _ _ => exact free
  | retry _ _ => exact free
  | done _ _ => exact free
  | kernfs _ _ => exact free
  | respond done handled => exact (inv.free_respond done handled).2.2.mpr (.inl free)

theorem answer_done (done : s.digest = .done answer) : answerOf s = some answer := by rw [answerOf,done]

theorem AllocMove.serviceable_iff (inv : Inv s) (move : AllocMove s t) (quiet : lowSpace s = false ∨ s.digest ≠ .idle) :
    Serviceable t ↔ Serviceable s := by
  cases move with
  | low _ low =>
    rw [request_busy (quiet.resolve_left (by simp [low]))]
    exact Iff.rfl
  | roomy _ _ => exact Iff.rfl
  | waited _ _ => exact Iff.rfl
  | retry _ _ => exact Iff.rfl
  | done _ _ => exact Iff.rfl
  | kernfs sent walk =>
    rw [serviceable_answer (inv.answer_kernfs sent walk),serviceable_answer (answer_done rfl)]
    exact Iff.rfl
  | respond done handled =>
    obtain ⟨_,idle,free⟩ := inv.free_respond done handled
    rw [serviceable_idle idle,free,serviceable_answer (answer_done done)]

theorem AllocMove.serviceable (inv : Inv s) (service : Serviceable s) (move : AllocMove s t) : Serviceable t := by
  by_cases idle : s.digest = .idle
  · exact .inl (move.free inv ((serviceable_idle idle).mp service))
  · exact (move.serviceable_iff inv (.inr idle)).mpr service

end Moves

section Return
variable {threshold : Nat} {s t : State}

def Phase.rank : Phase → Nat
  | .reserved _ _ => 3
  | .waiting _ _ => 2
  | .tested _ _ => 1
  | .idle | .entered _ | .allocated _ _ => 0

def distance (s : State) : Nat := if Free s then s.phase.rank else 4

theorem rank_le (phase : Phase) : phase.rank ≤ 3 := by
  cases phase <;> simp [Phase.rank]

theorem AllocMove.rank (inv : Inv s) (free : Free s) (move : AllocMove s t) :
    t.phase.rank ≤ s.phase.rank ∧ (s.digest = .idle → t.phase.rank < s.phase.rank) := by
  have nearer {phase : Phase} {rank : Nat} (less : phase.rank < rank) (here : s.phase.rank = rank) :
      phase.rank ≤ s.phase.rank ∧ (s.digest = .idle → phase.rank < s.phase.rank) := by
    rw [here]
    exact ⟨le_of_lt less,fun _ => less⟩
  cases move with
  | low phase low => exact nearer (show 2 < 3 by omega) (by rw [phase]; rfl)
  | roomy phase room => exact nearer (show 1 < 3 by omega) (by rw [phase]; rfl)
  | waited phase idle => exact nearer (show 1 < 2 by omega) (by rw [phase]; rfl)
  | retry phase past =>
    rw [inv.free_iff.mpr free] at past
    cases past
  | done phase _ => exact nearer (show 0 < 1 by omega) (by rw [phase]; rfl)
  | kernfs sent walk => exact ⟨le_refl _,fun idle => by rw [idle] at sent; cases sent⟩
  | respond done handled =>
    rw [(inv.free_respond done handled).1]
    exact ⟨le_refl _,fun idle => by rw [idle] at done; cases done⟩

theorem AllocMove.distance_le (inv : Inv s) (move : AllocMove s t) : distance t ≤ distance s := by
  unfold distance
  by_cases free : Free s
  · rw [if_pos free,if_pos (move.free inv free)]
    exact (move.rank inv free).1
  · rw [if_neg free]
    split
    · exact Nat.le_succ_of_le (rank_le _)
    · exact le_refl _

theorem AllocMove.distance_lt (inv : Inv s) (service : Serviceable s) (idle : s.digest = .idle) (move : AllocMove s t) :
    distance t < distance s := by
  have free := (serviceable_idle idle).mp service
  unfold distance
  rw [if_pos free,if_pos (move.free inv free)]
  exact (move.rank inv free).2 idle

theorem Inv.busy_move (inv : Inv s) (busy : s.digest ≠ .idle) : ∃ t, AllocMove s t ∧ t.phase = s.phase ∧
    ((∃ request, s.digest = .sent request) ∧ (∃ answer, t.digest = .done answer) ∨ t.digest = .idle) := by
  cases digest : s.digest with
  | idle => exact absurd digest busy
  | sent request =>
    obtain ⟨answer,each⟩ := inv.walk digest
    obtain ⟨area,walk⟩ := each s.log
    exact ⟨_,.kernfs digest walk,rfl,.inl ⟨⟨request,rfl⟩,answer,rfl⟩⟩
  | done answer =>
    have pending := inv.pending
    rw [Pending,digest] at pending
    obtain ⟨_,_,_,digested,requested,_⟩ := pending
    obtain ⟨t,handled⟩ : ∃ t, handleDigestResponse answer s = some t := by
      unfold handleDigestResponse
      rw [if_pos (requested.trans digested.symm)]
      exact ⟨_,rfl⟩
    obtain ⟨phase,idle,_⟩ := inv.free_respond digest handled
    exact ⟨t,.respond digest handled,phase,.inr idle⟩

theorem Inv.move (inv : Inv s) (inside : InLoop s) : ∃ t, AllocMove s t := by
  by_cases idle : s.digest = .idle
  · cases phase : s.phase with
    | reserved hdr nrBlocks =>
      cases space : lowSpace s with
      | false => exact ⟨_,.roomy phase space⟩
      | true => exact ⟨_,.low phase space⟩
    | waiting hdr nrBlocks => exact ⟨_,.waited phase idle⟩
    | tested hdr nrBlocks =>
      cases past : tailPastHead s with
      | false => exact ⟨_,.done phase past⟩
      | true => exact ⟨_,.retry phase past⟩
    | idle | entered _ | allocated _ _ => simp [InLoop,phase,Phase.retrying] at inside
  · obtain ⟨t,move,_⟩ := inv.busy_move idle
    exact ⟨t,move⟩

theorem AllocMove.leaves (inv : Inv s) (inside : InLoop s) (move : AllocMove s t) (left : ¬ InLoop t) :
    ∃ hdr nrBlocks, t.phase = .allocated hdr nrBlocks := by
  cases move with
  | low _ _ => exact absurd rfl left
  | roomy _ _ => exact absurd rfl left
  | waited _ _ => exact absurd rfl left
  | retry _ _ => exact absurd rfl left
  | done _ _ => exact ⟨_,_,rfl⟩
  | kernfs _ _ => exact absurd inside left
  | respond done handled =>
    rw [InLoop,(inv.free_respond done handled).1] at left
    exact absurd inside left

theorem serviceable_returns (threshold : Nat) (inv : Inv s) (inside : InLoop s) (service : Serviceable s) : Returns threshold s := by
  refine ⟨fun t reached loop => ?_,fun trace run answered => ?_⟩
  · have kept : Inv t := by
      clear loop
      induction reached with
      | refl => exact inv
      | tail _ step ih => exact ((allocStep_iff threshold).mp step).inv ih
    obtain ⟨u,move⟩ := kept.move loop
    exact ⟨u,(allocStep_iff threshold).mpr move⟩
  · have keeps : ∀ s t, Inv s ∧ Serviceable s → InLoop s → AllocStep threshold s t → Inv t ∧ Serviceable t := by
      rintro s t ⟨inv,service⟩ _ step
      have move := (allocStep_iff threshold).mp step
      exact ⟨move.inv inv,move.serviceable inv service⟩
    have ends : ∃ i, ¬ InLoop (trace i) := run.ends distance ⟨inv,service⟩ keeps
      (fun s t known _ step => ((allocStep_iff threshold).mp step).distance_le known.1)
      (fun s t known _ idle step => ((allocStep_iff threshold).mp step).distance_lt known.1 known.2 idle) answered
    obtain ⟨i,active,left⟩ := run.last inside ends
    have known := run.invariant ⟨inv,service⟩ keeps fun j before => active j (le_of_lt before)
    have now := active i (le_refl i)
    exact ⟨i + 1,((allocStep_iff threshold).mp (run.moves i now)).leaves known.1 now left⟩

structure Spins (s : State) : Prop where
  inv : Inv s
  inside : InLoop s
  blocked : ¬ Serviceable s
  high : s.nextAvailHeader ≤ s.size
  place : s.size < 2 ^ 64

theorem Inv.low (inv : Inv s) : s.begin ≤ s.startBlk := by
  rcases inv.lap with plain | ⟨_,_,_,wrapped⟩ | stuck
  · exact plain.low
  · exact wrapped.low
  · exact le_of_eq stuck.head.symm

theorem Spins.roomy (spins : Spins s) : lowSpace s = false := by
  have low := spins.inv.low
  have high := spins.high
  have place := spins.place
  have past : ¬ Free s := fun free => spins.blocked (.inl free)
  unfold Free at past
  unfold State.begin at low
  unfold State.size at high place
  refine decide_eq_false fun low => ?_
  simp only [gLogSize] at *
  rw [Nat.mod_eq_of_lt (show s.nextAvailHeader < 2 ^ 64 by omega),Nat.mod_eq_of_lt (by omega)] at low
  omega

theorem Spins.move (spins : Spins s) (move : AllocMove s t) : Spins t := by
  have blocked : ¬ Serviceable t := fun service => spins.blocked ((move.serviceable_iff spins.inv (.inl spins.roomy)).mp service)
  have past : tailPastHead s ≠ false := fun free => spins.blocked (.inl (spins.inv.free_iff.mp free))
  cases move with
  | low _ low => exact absurd (spins.roomy.symm.trans low) (by decide)
  | roomy phase room => exact ⟨(AllocMove.roomy phase room).inv spins.inv,rfl,blocked,spins.high,spins.place⟩
  | waited phase idle => exact ⟨(AllocMove.waited phase idle).inv spins.inv,rfl,blocked,spins.high,spins.place⟩
  | retry phase again => exact ⟨(AllocMove.retry phase again).inv spins.inv,rfl,blocked,spins.high,spins.place⟩
  | done _ free => exact absurd free past
  | kernfs sent walk => exact ⟨(AllocMove.kernfs sent walk).inv spins.inv,spins.inside,blocked,spins.high,spins.place⟩
  | respond done handled =>
    have phase := (spins.inv.free_respond done handled).1
    have frame := handleDigestResponse_frame handled
    refine ⟨(AllocMove.respond done handled).inv spins.inv,?_,blocked,?_,?_⟩
    · rw [InLoop,phase]
      exact spins.inside
    · rw [State.size,frame.tail,frame.place]
      exact spins.high
    · rw [State.size,frame.place]
      exact spins.place

def Digest.rank : Digest → Nat
  | .idle => 0
  | .done _ => 1
  | .sent _ => 2

theorem Spins.next (spins : Spins s) : ∃ t, AllocMove s t ∧ Spins t ∧ (s.digest.rank = 0 ∨ t.digest.rank < s.digest.rank) := by
  by_cases idle : s.digest = .idle
  · obtain ⟨t,move⟩ := spins.inv.move spins.inside
    exact ⟨t,move,spins.move move,.inl (by rw [idle]; rfl)⟩
  · obtain ⟨t,move,_,⟨⟨request,sent⟩,answer,done⟩ | done⟩ := spins.inv.busy_move idle
    · exact ⟨t,move,spins.move move,.inr (by rw [sent,done]; exact Nat.lt_succ_self 1)⟩
    · refine ⟨t,move,spins.move move,.inr ?_⟩
      rw [done]
      cases digest : s.digest with
      | idle => exact absurd digest idle
      | sent _ => exact Nat.succ_pos 1
      | done _ => exact Nat.one_pos

theorem Spins.never_returns (spins : Spins s) (threshold : Nat) : ¬ Returns threshold s := by
  intro returns
  choose next move kept falls using fun s : {s // Spins s} => s.2.next
  let follow : Nat → {s // Spins s} := fun i => i.rec ⟨s,spins⟩ fun _ s => ⟨next s,kept s⟩
  have answered : ∀ rank i, (follow i).1.digest.rank = rank → ∃ j, i ≤ j ∧ (follow j).1.digest = .idle := by
    intro rank
    induction rank using Nat.strongRecOn with
    | ind rank ih =>
      intro i now
      rcases falls (follow i) with zero | less
      · refine ⟨i,le_refl i,?_⟩
        cases digest : (follow i).1.digest with
        | idle => rfl
        | sent _ | done _ => simp [digest,Digest.rank] at zero
      · obtain ⟨j,later,idle⟩ := ih _ (now ▸ less) (i + 1) rfl
        exact ⟨j,Nat.le_of_succ_le later,idle⟩
  obtain ⟨i,hdr,nrBlocks,phase⟩ := returns.returns (fun i => (follow i).1)
    ⟨rfl,fun i _ => (allocStep_iff threshold).mpr (move (follow i))⟩ fun i => by
      obtain ⟨j,later,idle⟩ := answered _ i rfl
      exact ⟨j,later,.inl idle⟩
  have inside := (follow i).2.inside
  rw [InLoop,phase] at inside
  cases inside

end Return

theorem step_high {threshold : Nat} {s next : State} {action : Action} (high : s.nextAvailHeader ≤ s.size) (ok : RingOk threshold s action)
    (stepped : step threshold s action = some next) : next.nextAvailHeader ≤ next.size := by
  have requested : (makeDigestRequestAsync s).nextAvailHeader ≤ (makeDigestRequestAsync s).size := by
    unfold makeDigestRequestAsync makeDigestRequestSync moveHead
    split
    · split <;> exact high
    · exact high
  cases step_sound stepped with
  | request | enterFull _ _ | checkLow _ _ => exact requested
  | @reserve nrBlocks phase =>
    have fits : nrBlocks < gLogSize := by
      rw [RingOk,phase] at ok
      exact ok.1
    unfold reserveBlocks wrapTail State.begin State.size
    unfold State.size at high
    dsimp only
    split
    · dsimp only
      omega
    · rename_i room
      exact Nat.le_of_not_lt room
  | enter _ | check _ | waited _ | retry _ | recheck _ _ | commit _ | kernfs _ _ => exact high
  | respond done handled =>
    have frame := handleDigestResponse_frame handled
    rw [State.size,frame.tail,frame.place]
    exact high

theorem log_alloc_returns_iff (threshold logSbBlk : Nat) (log : LogArea) (actions : List Action) (s : State)
    (place : logSbBlk + gLogSize < 2 ^ 64) (ok : Guarded (step threshold) (RingOk threshold) (initLog logSbBlk log) actions)
    (ran : run (step threshold) (initLog logSbBlk log) actions = some s) (inside : InLoop s) : Returns threshold s ↔ Serviceable s := by
  have inv := reached_inv threshold logSbBlk log actions s ok ran
  constructor
  · intro returns
    by_contra blocked
    have high : s.nextAvailHeader ≤ s.size := invariant_run (step threshold) (RingOk threshold) (fun s => s.nextAvailHeader ≤ s.size)
      (fun s action next high ok stepped => step_high high ok stepped) _ s actions (Nat.add_le_add_left (by decide) _) ok ran
    have inLog : s.size < 2 ^ 64 := by
      rw [State.size,reached_logSbBlk ran]
      exact place
    exact Spins.never_returns ⟨inv,inside,blocked,high,inLog⟩ threshold returns
  · exact serviceable_returns threshold inv inside

-- Seven writes of 16 MB, the first being digested, and an eighth that wraps: the answer frees its blocks.
def freedRun : List Action := commits 7 4096 ++ [.enter 4096,.reserve]

theorem log_alloc_returns_freed : ∃ s, run (step 20) (initLog 616960 blankLog) freedRun = some s ∧
    s.phase = .reserved 616961 4097 ∧ ¬ Free s ∧ Returns 20 s := by
  obtain ⟨s,reached,phase,past,service⟩ : ∃ s, run (step 20) (initLog 616960 blankLog) freedRun = some s ∧
      s.phase = .reserved 616961 4097 ∧ ¬ Free s ∧ Serviceable s := by decide +kernel
  have inside : InLoop s := by rw [InLoop,phase]; rfl
  exact ⟨s,reached,phase,past,(log_alloc_returns_iff 20 616960 blankLog freedRun s (by decide) (by decide +kernel) reached inside).mpr service⟩

-- With a threshold of 100 percent the eighth finds the tail above the head.
theorem full_lap_spins : ∃ s, run (step 100) (initLog 616960 blankLog) freedRun = some s ∧
    s.phase = .reserved 616961 4097 ∧ s.digest = .idle ∧ ¬ Returns 100 s := by
  obtain ⟨s,reached,phase,idle,blocked,high,place⟩ : ∃ s, run (step 100) (initLog 616960 blankLog) freedRun = some s ∧
      s.phase = .reserved 616961 4097 ∧ s.digest = .idle ∧ ¬ Serviceable s ∧ s.nextAvailHeader ≤ s.size ∧ s.size < 2 ^ 64 := by
    decide +kernel
  have inv := reached_inv 100 616960 blankLog freedRun s (by decide +kernel) reached
  have inside : InLoop s := by rw [InLoop,phase]; rfl
  exact ⟨s,reached,phase,idle,Spins.never_returns ⟨inv,inside,blocked,high,place⟩ 100⟩

end Assise.LogRing
