import Assise.FreeRanges

-- Digest threads at the allocator: the free lists and the bits of the bitmap are changed in two steps, under two locks.
namespace Assise.AllocatorThreads

open Balloc Bitmap Lib.Runs Lib.Spans Function Multiset

inductive Phase where
  | idle
  | setting (block count : Nat)
  | clearing (block count : Nat)
deriving DecidableEq, Repr

def Phase.Takes : Phase → Nat → Prop
  | .setting block count,b => b ∈ span block count
  | _,_ => False

def Phase.Clears : Phase → Nat → Prop
  | .clearing block count,b => b ∈ span block count
  | _,_ => False

-- The range survives the types of `bitmap_set`.
def Phase.Short : Phase → Prop
  | .setting block count => block < 2 ^ 32 ∧ count < 2 ^ 31
  | _ => True

instance : (phase : Phase) → Decidable phase.Short
  | .setting block count => inferInstanceAs (Decidable (block < 2 ^ 32 ∧ count < 2 ^ 31))
  | .idle | .clearing .. => .isTrue trivial

-- `held` are the blocks whose allocation is complete and that were not given back since.
structure State where
  sb : SuperBlock
  phase : Nat → Phase
  held : Multiset Nat

inductive Action where
  | newBlocks (t num : Nat) (atype : AllocType)
  | setRange (t : Nat)
  | freeBlocksNode (t block count : Nat)
  | bitsFree (t : Nat)
deriving DecidableEq, Repr

-- The steps of `mlfs_ext_alloc_blocks` and `mlfs_free_blocks`. A request that fails is tried again; blocks given back
-- are held ones.
def step (s : State) : Action → Option State
  | .newBlocks t num atype =>
    if s.phase t = .idle ∧ (atype = .tree → num = 1) then
      match mlfsNewBlocks s.sb num atype with
      | (some block,sb) => some {s with sb := sb, phase := update s.phase t (.setting block num)}
      | (none,sb) => some {s with sb := sb}
    else none
  | .setRange t =>
    match s.phase t with
    | .setting block count =>
      some
        { sb := {s.sb with sBlkBitmap := bitmapBitsSetRange s.sb.sBlkBitmap block count}
          phase := update s.phase t .idle
          held := s.held + span block count }
    | _ => none
  | .freeBlocksNode t block count =>
    if s.phase t = .idle ∧ count ≠ 0 ∧ span block count ≤ s.held then
      (mlfsFreeBlocksNode s.sb block count).map fun sb =>
        { sb := sb
          phase := update s.phase t (.clearing block count)
          held := s.held - span block count }
    else none
  | .bitsFree t =>
    match s.phase t with
    | .clearing block count =>
      some
        { s with
          sb := {s.sb with sBlkBitmap := bitmapBitsFree s.sb.sBlkBitmap block count}
          phase := update s.phase t .idle }
    | _ => none

def State.bit (s : State) (b : Nat) : Bool := s.sb.sBlkBitmap.bitmap b

def State.Quiet (s : State) : Prop := ∀ t, s.phase t = .idle

def Matched (space : Nat → Prop) (s : State) : Prop := ∀ b, space b → (s.bit b = true ↔ b ∉ s.sb.free)

-- A free clears its bits while none of its blocks is held: what another thread took meanwhile still waits for its
-- bits, or is given back. Bits are set below 2^32.
def Careful (s : State) : Action → Prop
  | .bitsFree t => ∀ b, (s.phase t).Clears b → b ∉ s.held
  | .setRange t => (s.phase t).Short
  | .newBlocks .. | .freeBlocksNode .. => True

instance (s : State) : (action : Action) → Decidable (Careful s action)
  | .bitsFree t =>
    match phase : s.phase t with
    | .clearing block count => decidable_of_iff (∀ b ∈ span block count, b ∉ s.held) (by rw [Careful,phase]; exact Iff.rfl)
    | .idle => .isTrue fun b clears => by rw [phase] at clears; exact clears.elim
    | .setting block count => .isTrue fun b clears => by rw [phase] at clears; exact clears.elim
  | .setRange t => inferInstanceAs (Decidable (s.phase t).Short)
  | .newBlocks .. | .freeBlocksNode .. => .isTrue trivial

inductive Spot where
  | free
  | held
  | taken (t : Nat)

def State.At (s : State) (b : Nat) : Spot → Prop
  | .free => b ∈ s.sb.free
  | .held => b ∈ s.held
  | .taken t => (s.phase t).Takes b

structure Sound (space : Nat → Prop) (s : State) : Prop where
  neat : s.sb.NeatIn fun _ _ => True
  free : s.sb.free.Nodup
  held : s.held.Nodup
  once : ∀ b spot spot', s.At b spot → s.At b spot' → spot = spot'
  space : ∀ b, space b ↔ ∃ spot, s.At b spot

structure InStep (s : State) : Prop where
  set : ∀ b ∈ s.held, s.bit b = true
  clear : ∀ b ∈ s.sb.free, s.bit b = true → ∃ t, (s.phase t).Clears b

theorem matched_of_quiet {space : Nat → Prop} {s : State} (sound : Sound space s) (inStep : InStep s) (quiet : s.Quiet) :
    Matched space s := by
  intro b allocatable
  constructor
  · intro set free
    obtain ⟨t,clears⟩ := inStep.clear b free set
    rw [quiet t] at clears
    exact clears
  · intro out
    obtain ⟨spot,here⟩ := (sound.space b).mp allocatable
    cases spot with
    | free => exact absurd here out
    | held => exact inStep.set b here
    | taken t =>
      change (s.phase t).Takes b at here
      rw [quiet t] at here
      exact here.elim

theorem inStep_of_matched {space : Nat → Prop} {s : State} (sound : Sound space s) (matched : Matched space s) : InStep s := by
  refine ⟨fun b held => ?_,fun b free set => ?_⟩
  · refine (matched b ((sound.space b).mpr ⟨.held,held⟩)).mpr fun free => ?_
    cases sound.once b .held .free held free
  · exact absurd free ((matched b ((sound.space b).mpr ⟨.free,free⟩)).mp set)

section Steps

variable {space : Nat → Prop} {s next : State} {t : Nat}

structure Moves (s next : State) (range : Nat → Prop) (old new : Spot) : Prop where
  from_ : ∀ b, range b → s.At b old
  left : ∀ b, next.At b old ↔ s.At b old ∧ ¬ range b
  arrived : ∀ b, next.At b new ↔ s.At b new ∨ range b
  others : ∀ b spot, spot ≠ old → spot ≠ new → (next.At b spot ↔ s.At b spot)

theorem Moves.sound {range : Nat → Prop} {old new : Spot} (moves : Moves s next range old new) (different : old ≠ new)
    (sound : Sound space s) (neat : next.sb.NeatIn fun _ _ => True) (free : next.sb.free.Nodup) (held : next.held.Nodup) :
    Sound space next := by
  -- A block of the range is at the new place only, any other block where it was.
  have moved : ∀ b spot, range b → next.At b spot → spot = new := by
    intro b spot member here
    by_cases isNew : spot = new
    · exact isNew
    · by_cases isOld : spot = old
      · subst isOld
        exact absurd member ((moves.left b).mp here).2
      · exact absurd (sound.once b spot old ((moves.others b spot isOld isNew).mp here) (moves.from_ b member)) isOld
  have stays : ∀ b spot, ¬ range b → (next.At b spot ↔ s.At b spot) := by
    intro b spot outside
    by_cases isOld : spot = old
    · subst isOld
      rw [moves.left]
      exact and_iff_left outside
    · by_cases isNew : spot = new
      · subst isNew
        rw [moves.arrived]
        exact or_iff_left outside
      · exact moves.others b spot isOld isNew
  refine ⟨neat,free,held,fun b spot spot' first second => ?_,fun b => ?_⟩
  · by_cases member : range b
    · rw [moved b spot member first,moved b spot' member second]
    · exact sound.once b spot spot' ((stays b spot member).mp first) ((stays b spot' member).mp second)
  · rw [sound.space]
    by_cases member : range b
    · exact iff_of_true ⟨old,moves.from_ b member⟩ ⟨new,(moves.arrived b).mpr (Or.inr member)⟩
    · exact exists_congr fun spot => (stays b spot member).symm

theorem Sound.still (sound : Sound space s) (same : ∀ b spot, next.At b spot ↔ s.At b spot)
    (neat : next.sb.NeatIn fun _ _ => True) (free : next.sb.free.Nodup) (held : next.held.Nodup) : Sound space next := by
  refine ⟨neat,free,held,fun b spot spot' first second => ?_,fun b => ?_⟩
  · exact sound.once b spot spot' ((same b spot).mp first) ((same b spot').mp second)
  · rw [sound.space]
    exact exists_congr fun spot => (same b spot).symm

variable {b : Nat}

theorem at_update {sb : SuperBlock} {held : Multiset Nat} {p : Phase} {u : Nat} :
    (⟨sb,update s.phase t p,held⟩ : State).At b (.taken u) ↔ if u = t then p.Takes b else s.At b (.taken u) := by
  unfold State.At
  dsimp only
  by_cases same : u = t
  · subst same
    rw [update_self,if_pos rfl]
  · rw [update_of_ne same,if_neg same]

theorem clears_kept {p : Phase} (none_ : ∀ b, ¬ (s.phase t).Clears b) (clears : ∃ u, (s.phase u).Clears b) :
    ∃ u, (update s.phase t p u).Clears b := by
  obtain ⟨u,clears⟩ := clears
  refine ⟨u,?_⟩
  rwa [update_of_ne]
  rintro rfl
  exact none_ b clears

theorem Sound.newBlocks {num : Nat} {atype : AllocType} (sound : Sound space s) (zero : ¬ space 0)
    (stepped : step s (.newBlocks t num atype) = some next) : Sound space next ∧ (InStep s → InStep next) := by
  simp only [step] at stepped
  split at stepped
  · rename_i guard
    obtain ⟨idle,single⟩ := guard
    split at stepped
    · rename_i block sb alloc
      cases stepped
      obtain ⟨neat,_,sum,handed,_⟩ := sound.neat.newBlocks single alloc
      cases handed block rfl
      obtain ⟨lists,frame,_⟩ := newBlocks_frame alloc
      have distinct := sound.free
      rw [sum] at distinct
      obtain ⟨free,_,disjoint⟩ := nodup_add.mp distinct
      have moves : Moves s ⟨sb,update s.phase t (.setting block num),s.held⟩ (· ∈ span block num) .free (.taken t) := by
        refine ⟨fun b member => ?_,fun b => ?_,fun b => ?_,fun b spot notFree notTaken => ?_⟩
        · change b ∈ s.sb.free
          rw [sum]
          exact mem_add.mpr (Or.inr member)
        · change b ∈ sb.free ↔ b ∈ s.sb.free ∧ _
          rw [sum,mem_add]
          have apart : b ∈ sb.free → b ∉ span block num := fun left right => disjoint_left.mp disjoint left right
          tauto
        · rw [at_update,if_pos rfl]
          simp [State.At,idle,Phase.Takes]
        · cases spot with
          | free => exact absurd rfl notFree
          | held => exact Iff.rfl
          | taken u => rw [at_update,if_neg (fun same => notTaken (by rw [same]))]
      refine ⟨moves.sound nofun sound neat free sound.held,fun inStep => ⟨fun b held => ?_,fun b member set => ?_⟩⟩
      · rw [State.bit,frame]
        exact inStep.set b held
      · rw [State.bit,frame] at set
        exact clears_kept (by rw [idle]; exact fun _ => id) (inStep.clear b ((moves.left b).mp member).1 set)
    · rename_i sb alloc
      cases stepped
      obtain ⟨neat,_,sum,_,missed⟩ := sound.neat.newBlocks single alloc
      cases missed rfl fun free => zero ((sound.space 0).mpr ⟨.free,free⟩)
      obtain ⟨lists,frame,_⟩ := newBlocks_frame alloc
      rw [add_zero] at sum
      have same : ∀ b spot, State.At {s with sb := sb} b spot ↔ s.At b spot := by
        intro b spot
        cases spot with
        | free =>
          change b ∈ sb.free ↔ b ∈ s.sb.free
          rw [sum]
        | held => exact Iff.rfl
        | taken u => exact Iff.rfl
      refine ⟨sound.still same neat (sum ▸ sound.free) sound.held,fun inStep => ⟨fun b held => ?_,fun b member set => ?_⟩⟩
      · rw [State.bit,frame]
        exact inStep.set b held
      · rw [State.bit,frame] at set
        exact inStep.clear b (sum ▸ member) set
  · cases stepped

theorem Sound.setRange (sound : Sound space s) (stepped : step s (.setRange t) = some next) :
    Sound space next ∧ (Careful s (.setRange t) → InStep s → InStep next) := by
  simp only [step] at stepped
  split at stepped
  · rename_i block count phase
    cases stepped
    have mine : ∀ b, s.At b (.taken t) ↔ b ∈ span block count := by
      intro b
      change (s.phase t).Takes b ↔ _
      rw [phase]
      exact Iff.rfl
    have notHeld : ∀ b ∈ span block count, b ∉ s.held := fun b member held => by
      cases sound.once b (.taken t) .held ((mine b).mpr member) held
    have notFree : ∀ b ∈ span block count, b ∉ s.sb.free := fun b member free => by
      cases sound.once b (.taken t) .free ((mine b).mpr member) free
    have moves : Moves s ⟨{s.sb with sBlkBitmap := bitmapBitsSetRange s.sb.sBlkBitmap block count},update s.phase t .idle,
        s.held + span block count⟩ (· ∈ span block count) (.taken t) .held := by
      refine ⟨fun b => (mine b).mpr,fun b => ?_,fun b => mem_add,fun b spot notTaken notHeld => ?_⟩
      · rw [at_update,if_pos rfl,mine]
        simp [Phase.Takes]
      · cases spot with
        | free => exact Iff.rfl
        | held => exact absurd rfl notHeld
        | taken u => rw [at_update,if_neg (fun same => notTaken (by rw [same]))]
    have held : (s.held + span block count).Nodup := nodup_add.mpr ⟨sound.held,nodup_span _ _,
      disjoint_left.mpr fun {b} held member => notHeld b member held⟩
    refine ⟨moves.sound nofun sound ⟨sound.neat.lists,sound.neat.shared⟩ sound.free held,fun careful inStep => ?_⟩
    have bits : ∀ b, (bitmapBitsSetRange s.sb.sBlkBitmap block count).bitmap b = true ↔ s.bit b = true ∨ b ∈ span block count := by
      intro b
      rw [Careful,phase] at careful
      rw [bitmapBitsSetRange_bitmap _ careful.1 careful.2,withRange_bit,mem_span]
      exact Iff.rfl
    refine ⟨fun b member => ?_,fun b free set => ?_⟩
    · exact (bits b).mpr ((mem_add.mp member).imp_left (inStep.set b))
    · rcases (bits b).mp set with was | member
      · exact clears_kept (by rw [phase]; exact fun _ => id) (inStep.clear b free was)
      · exact absurd free (notFree b member)
  · cases stepped

theorem Sound.freeBlocksNode {block count : Nat} (sound : Sound space s)
    (stepped : step s (.freeBlocksNode t block count) = some next) : Sound space next ∧ (InStep s → InStep next) := by
  simp only [step] at stepped
  split at stepped
  · rename_i guard
    obtain ⟨idle,asked,held⟩ := guard
    obtain ⟨sb,freed,rfl⟩ := Option.map_eq_some_iff.mp stepped
    have mine : ∀ b ∈ span block count, b ∈ s.held := fun b member => mem_of_le held member
    have notFree : ∀ b ∈ span block count, b ∉ s.sb.free := fun b member free => by
      cases sound.once b .held .free (mine b member) free
    obtain ⟨after,freed',neat,sum⟩ := sound.neat.freeBlocksNode asked notFree fun _ _ => trivial
    rw [freed] at freed'
    cases freed'
    obtain ⟨lists,shared,frame,_⟩ := freeBlocksNode_frame freed
    have moves : Moves s ⟨sb,update s.phase t (.clearing block count),s.held - span block count⟩
        (· ∈ span block count) .held .free := by
      refine ⟨mine,fun b => mem_sub_of_nodup sound.held,fun b => ?_,fun b spot notHeld notFree => ?_⟩
      · change b ∈ sb.free ↔ _
        rw [sum]
        exact mem_add
      · cases spot with
        | free => exact absurd rfl notFree
        | held => exact absurd rfl notHeld
        | taken u =>
          rw [at_update]
          split
          · rename_i same
            subst same
            simp [State.At,idle,Phase.Takes]
          · exact Iff.rfl
    have free : sb.free.Nodup := by
      rw [sum]
      exact nodup_add.mpr ⟨sound.free,nodup_span _ _,disjoint_left.mpr fun {b} free member => notFree b member free⟩
    refine ⟨moves.sound nofun sound neat free (Multiset.nodup_of_le (Multiset.sub_le_self _ _) sound.held),
      fun inStep => ⟨fun b member => ?_,fun b member set => ?_⟩⟩
    · rw [State.bit,frame]
      exact inStep.set b ((moves.left b).mp member).1
    · rw [State.bit,frame] at set
      rcases (moves.arrived b).mp member with old | new
      · exact clears_kept (by rw [idle]; exact fun _ => id) (inStep.clear b old set)
      · exact ⟨t,by dsimp only; rw [update_self]; exact new⟩
  · cases stepped

theorem Sound.bitsFree (sound : Sound space s) (stepped : step s (.bitsFree t) = some next) :
    Sound space next ∧ (InStep s → (InStep next ↔ Careful s (.bitsFree t))) := by
  simp only [step] at stepped
  split at stepped
  · rename_i block count phase
    cases stepped
    have mine : ∀ b, (s.phase t).Clears b ↔ b ∈ span block count := by
      intro b
      rw [phase]
      exact Iff.rfl
    have same : ∀ b spot, State.At ⟨{s.sb with sBlkBitmap := bitmapBitsFree s.sb.sBlkBitmap block count},
        update s.phase t .idle,s.held⟩ b spot ↔ s.At b spot := by
      intro b spot
      cases spot with
      | free => exact Iff.rfl
      | held => exact Iff.rfl
      | taken u =>
        rw [at_update]
        split
        · rename_i same
          subst same
          simp [State.At,phase,Phase.Takes]
        · exact Iff.rfl
    have bits : ∀ b, (bitmapBitsFree s.sb.sBlkBitmap block count).bitmap b = true ↔ s.bit b = true ∧ b ∉ span block count := by
      intro b
      rw [bitmapBitsFree_bitmap,withoutRange_bit,mem_span]
      exact Iff.rfl
    refine ⟨sound.still same ⟨sound.neat.lists,sound.neat.shared⟩ sound.free sound.held,
      fun inStep => ⟨fun after b clears held => ?_,fun careful => ⟨fun b held => ?_,fun b free set => ?_⟩⟩⟩
    · exact ((bits b).mp (after.set b held)).2 ((mine b).mp clears)
    · exact (bits b).mpr ⟨inStep.set b held,fun member => careful b ((mine b).mpr member) held⟩
    · obtain ⟨was,outside⟩ := (bits b).mp set
      obtain ⟨u,clears⟩ := inStep.clear b free was
      refine ⟨u,?_⟩
      dsimp only
      rwa [update_of_ne]
      rintro rfl
      exact outside ((mine b).mp clears)
  · cases stepped

theorem step_kept {action : Action} (zero : ¬ space 0) (kept : Sound space s ∧ InStep s) (careful : Careful s action)
    (stepped : step s action = some next) : Sound space next ∧ InStep next := by
  obtain ⟨sound,inStep⟩ := kept
  cases action with
  | newBlocks t num atype => exact (sound.newBlocks zero stepped).imp_right fun keeps => keeps inStep
  | setRange t => exact (sound.setRange stepped).imp_right fun keeps => keeps careful inStep
  | freeBlocksNode t block count => exact (sound.freeBlocksNode stepped).imp_right fun keeps => keeps inStep
  | bitsFree t => exact (sound.bitsFree stepped).imp_right fun keeps => (keeps inStep).mpr careful

end Steps

theorem bitmap_matches_free_lists (space : Nat → Prop) (zero : ¬ space 0) (s final : State) (start : Sound space s ∧ InStep s)
    (actions : List Action) (careful : Guarded step Careful s actions) (ran : run step s actions = some final) :
    (final.Quiet → Matched space final) ∧
      ∀ t next, step final (.bitsFree t) = some next → next.Quiet → (Matched space next ↔ Careful final (.bitsFree t)) := by
  obtain ⟨sound,inStep⟩ := invariant_run step Careful (fun s => Sound space s ∧ InStep s)
    (fun _ _ _ kept careful stepped => step_kept zero kept careful stepped) s final actions start careful ran
  refine ⟨matched_of_quiet sound inStep,fun t next stepped quiet => ?_⟩
  obtain ⟨sound',keeps⟩ := sound.bitsFree stepped
  rw [←keeps inStep]
  exact ⟨inStep_of_matched sound',fun inStep' => matched_of_quiet sound' inStep' quiet⟩

def initial (numBlocks reservedBlocks nPartition : Nat) : State :=
  ⟨Lending.mlfsInitBlockmap numBlocks reservedBlocks nPartition,fun _ => .idle,0⟩

variable {b : Nat}

theorem free_above {numBlocks reservedBlocks nPartition : Nat} (room : reservedBlocks < numBlocks / nPartition)
    (free : b ∈ (initial numBlocks reservedBlocks nPartition).sb.free) : reservedBlocks ≤ b := by
  rcases mem_add.mp free with listed | shared
  · obtain ⟨fl,member,inside⟩ := mem_sum_map.mp listed
    obtain ⟨i,_,rfl⟩ := List.mem_map.mp member
    obtain ⟨n,there,low,_⟩ := mem_rangeBlocks.mp inside
    cases List.mem_singleton.mp there
    dsimp only at low
    cases i with
    | zero =>
      rw [Nat.mul_zero,if_pos rfl] at low
      omega
    | succ i =>
      rw [Nat.mul_succ] at low
      omega
  · exact absurd shared (notMem_zero b)

theorem initial_kept {numBlocks reservedBlocks nPartition : Nat} (room : reservedBlocks < numBlocks / nPartition) :
    Sound (· ∈ (initial numBlocks reservedBlocks nPartition).sb.free) (initial numBlocks reservedBlocks nPartition) ∧
      InStep (initial numBlocks reservedBlocks nPartition) := by
  have neat := (Lending.mlfsInitBlockmap_sound room).ranges
  refine ⟨⟨⟨fun i fl found => (neat.lists i fl found).mono fun _ _ => trivial,neat.shared.mono fun _ _ => trivial⟩,neat.nodup,
    nodup_zero,fun b spot spot' first second => ?_,fun b => ⟨fun free => ⟨.free,free⟩,?_⟩⟩,fun b held => ?_,fun b free set => ?_⟩
  · cases spot with
    | free =>
      cases spot' with
      | free => rfl
      | held => exact absurd second (notMem_zero b)
      | taken t => exact second.elim
    | held => exact absurd first (notMem_zero b)
    | taken t => exact first.elim
  · rintro ⟨spot,here⟩
    cases spot with
    | free => exact here
    | held => exact absurd here (notMem_zero b)
    | taken t => exact here.elim
  · exact absurd held (notMem_zero b)
  · have low : b < reservedBlocks := of_decide_eq_true set
    exact absurd low (not_lt.mpr (free_above room free))

theorem bitmap_matches_free_lists_tree_block : ∃ final,
    run step (initial 20 3 1) [.newBlocks 0 4 .data,.setRange 0,.freeBlocksNode 0 3 2,.newBlocks 1 1 .tree,.bitsFree 0,.setRange 1] =
      some final ∧ Matched (· ∈ (initial 20 3 1).sb.free) final := by
  refine ⟨_,rfl,(bitmap_matches_free_lists _ (by decide +kernel) (initial 20 3 1) _ (initial_kept (by decide))
    [.newBlocks 0 4 .data,.setRange 0,.freeBlocksNode 0 3 2,.newBlocks 1 1 .tree,.bitsFree 0,.setRange 1] (by decide +kernel) rfl).1 ?_⟩
  intro t
  simp only [update_apply]
  split_ifs <;> rfl

-- Thread 0 puts blocks 3 to 6 back; before it clears their bits, thread 1 takes them and sets the bits.
theorem reallocated_blocks_lose_bits : ∃ final,
    run step (initial 20 3 1) [.newBlocks 0 4 .data,.setRange 0,.freeBlocksNode 0 3 4,.newBlocks 1 4 .data,.setRange 1,.bitsFree 0] =
      some final ∧ final.Quiet ∧ 3 ∈ (initial 20 3 1).sb.free ∧ 3 ∈ final.held ∧ 3 ∉ final.sb.free ∧ final.bit 3 = false := by
  refine ⟨_,rfl,fun t => ?_,by decide +kernel,by decide +kernel,by decide +kernel,?_⟩
  · simp only [update_apply]
    split_ifs <;> rfl
  · rw [State.bit,bitmapBitsFree_bitmap]
    simp [withoutRange]

-- In every order of the steps, also where the bits go wrong.
theorem blocks_in_one_place (space : Nat → Prop) (zero : ¬ space 0) (s final : State) (start : Sound space s)
    (actions : List Action) (ran : run step s actions = some final) :
    (∀ b, space b ↔ ∃! spot, final.At b spot) ∧ final.sb.free.Nodup ∧ final.held.Nodup := by
  have sound : Sound space final := by
    refine invariant_run step (fun _ _ => True) (Sound space) (fun s action next sound _ stepped => ?_) s final actions start
      (guarded_true ..) ran
    cases action with
    | newBlocks t num atype => exact (sound.newBlocks zero stepped).1
    | setRange t => exact (sound.setRange stepped).1
    | freeBlocksNode t block count => exact (sound.freeBlocksNode stepped).1
    | bitsFree t => exact (sound.bitsFree stepped).1
  refine ⟨fun b => (sound.space b).trans ?_,sound.free,sound.held⟩
  exact ⟨fun ⟨spot,here⟩ => ⟨spot,here,fun other there => sound.once b other spot there here⟩,ExistsUnique.exists⟩

theorem blocks_in_one_place_reallocated : ∃ final,
    run step (initial 20 3 1) [.newBlocks 0 4 .data,.setRange 0,.freeBlocksNode 0 3 4,.newBlocks 1 4 .data] = some final ∧
      (∀ b, b ∈ (initial 20 3 1).sb.free ↔ ∃! spot, final.At b spot) ∧ final.sb.free.Nodup ∧ final.held.Nodup :=
  (Option.isSome_iff_exists.mp rfl).imp fun final ran =>
    ⟨ran,blocks_in_one_place _ (by decide +kernel) (initial 20 3 1) final (initial_kept (by decide)).1 _ ran⟩

end Assise.AllocatorThreads
