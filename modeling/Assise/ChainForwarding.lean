import Assise.Lib.Fields

-- The chain of KernFS nodes that a replicated log goes along. The immediate value of an RDMA write tells each node what
-- has arrived; it is decoded, counted down and sent on.
namespace Assise.ChainForwarding
open Lib.Fields

structure Message where
  peerId : Nat
  seqn : Nat
  size : Nat
  rotated : Bool
  ack : Bool

def Message.blockNr (m : Message) : Nat := (m.size + 4095) % 2 ^ 64 / 4096 % 2 ^ 32

def generateRsyncMetadata (rf : Nat) (m : Message) : Nat :=
  m.seqn <<< 30 % 2 ^ 32 ||| m.blockNr <<< 10 % 2 ^ 32 ||| ((rf - 1) % 2 ^ 8) <<< 8 ||| (m.peerId % 2 ^ 16) <<< 2 |||
    m.rotated.toNat <<< 1 ||| m.ack.toNat

-- `remaining` is unsigned: the assertion that it is not negative always holds.
def nextRsyncMetadata (imm : Nat) : Nat :=
  let remaining := ((imm &&& 0x300) >>> 8 + 2 ^ 32 - 1) % 2 ^ 32
  remaining <<< 8 % 2 ^ 32 ||| imm &&& 0xFFFFFCFF

structure Decoded where
  seqn : Nat
  nLogBlk : Nat
  steps : Nat
  requesterId : Nat
  rotated : Nat
  ack : Nat
deriving DecidableEq, Repr

def decodeRsyncMetadata (imm : Nat) : Decoded where
  seqn := (imm &&& 0xC0000000) >>> 30
  nLogBlk := (imm &&& 0x3FFFFC00) >>> 10
  steps := (imm &&& 0x300) >>> 8
  requesterId := (imm &&& 0xFC) >>> 2
  rotated := (imm &&& 2) >>> 1
  ack := imm &&& 1

structure Hop where
  node : Nat
  decoded : Decoded
  acknowledges : Bool
deriving DecidableEq, Repr

-- `signal_callback` of the node `self` and of those it forwards to. The chain ends at the node before the one the
-- process runs on.
def signalCallback (n : Nat) (localKernfsId : Nat → Nat) : Nat → Nat → Nat → List Hop
  | 0,_,_ => []
  | fuel + 1,self,imm =>
    let decoded := decodeRsyncMetadata imm
    let lastInChain := (localKernfsId decoded.requesterId + n - 1) % n == self
    ⟨self,decoded,lastInChain && decoded.ack != 0⟩ ::
      if lastInChain then [] else signalCallback n localKernfsId fuel ((self + 1) % n) (nextRsyncMetadata imm)

-- `rpc_replicate_log` of the process that the log belongs to. The node that acknowledges is found by
-- a division by the replication factor.
def rpcReplicateLog (n rf : Nat) (localKernfsId : Nat → Nat) (fuel : Nat) (m : Message) : Option (List Hop) :=
  if rf = 0 then none
  else if 2 < n then
    some (signalCallback n localKernfsId fuel ((localKernfsId m.peerId + 1) % n) (generateRsyncMetadata rf m))
  else some []

structure Message.Fits (m : Message) : Prop where
  peerId : m.peerId < 2 ^ 6
  seqn : m.seqn < 2 ^ 2
  blocks : 0 < m.size ∧ (m.size + 4095) / 4096 < 2 ^ 20

def nrHops (n : Nat) : Nat := if 2 < n then n - 1 else 0

def relayed (n home steps : Nat) (m : Message) (i : Nat) : Hop where
  node := (home + 1 + i) % n
  decoded := ⟨m.seqn,(m.size + 4095) / 4096,steps - i,m.peerId,m.rotated.toNat,m.ack.toNat⟩
  acknowledges := decide (i + 2 = n) && m.ack

def Relays (n rf : Nat) (localKernfsId : Nat → Nat) : Prop :=
  ∀ m : Message, m.Fits → ∃ steps, n ≤ steps + 2 ∧ ∀ fuel, nrHops n ≤ fuel →
    rpcReplicateLog n rf localKernfsId fuel m =
      some ((List.range (nrHops n)).map (relayed n (localKernfsId m.peerId) steps m))

variable {m : Message} {imm : Nat}

theorem decode_fields (imm : Nat) : decodeRsyncMetadata imm =
    ⟨field imm 30 2,field imm 10 20,field imm 8 2,field imm 2 6,field imm 1 1,field imm 0 1⟩ := by
  rw [decodeRsyncMetadata,Decoded.mk.injEq]
  refine ⟨masked_shift (by decide),masked_shift (by decide),masked_shift (by decide),masked_shift (by decide),
    masked_shift (by decide),?_⟩
  rw [field,Nat.shiftRight_zero,Nat.and_one_is_mod,Nat.pow_one]

theorem Message.Fits.blockNr (fits : m.Fits) : m.blockNr = (m.size + 4095) / 4096 := by
  have blocks := fits.blocks.2
  unfold Message.blockNr
  omega

theorem generate_fields (rf : Nat) (fits : m.Fits) : decodeRsyncMetadata (generateRsyncMetadata rf m) =
    ⟨m.seqn,(m.size + 4095) / 4096 ||| (rf - 1) % 2 ^ 8 / 4,(rf - 1) % 2 ^ 8 % 4,m.peerId,m.rotated.toNat,m.ack.toNat⟩ := by
  have seqn := fits.seqn
  have blocks := fits.blocks.2
  have id := fits.peerId
  have rotated : m.rotated.toNat < 2 ^ 1 := Bool.toNat_lt _
  have ack : m.ack.toNat < 2 ^ 1 := Bool.toNat_lt _
  have steps : (rf - 1) % 2 ^ 8 < 2 ^ 8 := Nat.mod_lt _ (by decide)
  rw [generateRsyncMetadata,fits.blockNr]
  generalize (m.size + 4095) / 4096 = count at *
  generalize (rf - 1) % 2 ^ 8 = remaining at *
  rw [Nat.mod_eq_of_lt (show m.peerId < 2 ^ 16 by omega),Nat.mod_eq_of_lt (by rw [Nat.shiftLeft_eq]; omega),
    Nat.mod_eq_of_lt (by rw [Nat.shiftLeft_eq]; omega),decode_fields]
  have small : ∀ {value shift low : Nat}, value * 2 ^ shift < 2 ^ low → value <<< shift < 2 ^ low := by
    intro value shift low fits
    rwa [Nat.shiftLeft_eq]
  have mixed : field (remaining <<< 8) 10 20 = remaining / 4 := by
    rw [field,Nat.shiftRight_eq_div_pow,Nat.shiftLeft_eq]
    omega
  have left : field (remaining <<< 8) 8 2 = remaining % 4 := by
    rw [field,Nat.shiftLeft_shiftRight]
    rfl
  simp only [field_or,Decoded.mk.injEq]
  refine ⟨?_,?_,?_,?_,?_,?_⟩
  · rw [field_placed seqn,field_below (small (by omega)),field_below (small (by omega)),field_below (small (by omega)),
      field_below (small (by omega)),field_below (by omega)]
    simp
  · rw [field_above (by decide),field_placed blocks,mixed,field_below (small (by omega)),
      field_below (small (by omega)),field_below (by omega)]
    simp
  · rw [field_above (by decide),field_above (by decide),left,field_below (small (by omega)),
      field_below (small (by omega)),field_below (by omega)]
    simp
  · rw [field_above (by decide),field_above (by decide),field_above (by decide),field_placed id,
      field_below (small (by omega)),field_below (by omega)]
    simp
  · rw [field_above (by decide),field_above (by decide),field_above (by decide),field_above (by decide),
      field_placed rotated,field_below (by omega)]
    simp
  · rw [field_above (by decide),field_above (by decide),field_above (by decide),field_above (by decide),
      field_above (by decide),field,Nat.shiftRight_zero,Nat.mod_eq_of_lt ack]
    simp

theorem next_fields (more : 0 < field imm 8 2) : decodeRsyncMetadata (nextRsyncMetadata imm) =
    { decodeRsyncMetadata imm with steps := (decodeRsyncMetadata imm).steps - 1 } := by
  have few : field imm 8 2 < 4 := Nat.mod_lt _ (by decide)
  have counted : (field imm 8 2 + 2 ^ 32 - 1) % 2 ^ 32 = field imm 8 2 - 1 := by omega
  have small : (field imm 8 2 - 1) <<< 8 < 2 ^ 10 := by
    rw [Nat.shiftLeft_eq]
    omega
  rw [nextRsyncMetadata,masked_shift (by decide : 0x300 >>> 8 = 2 ^ 2 - 1),counted,Nat.mod_eq_of_lt (by omega),decode_fields,
    decode_fields]
  simp only [field_or,Decoded.mk.injEq]
  refine ⟨?_,?_,?_,?_,?_,?_⟩
  · rw [field_below (by omega),field_masked (by decide),Nat.zero_or]
  · rw [field_below small,field_masked (by decide),Nat.zero_or]
  · rw [field_placed (by omega),field_and,(by decide : field 0xFFFFFCFF 8 2 = 0),Nat.and_zero,Nat.or_zero]
  · rw [field_above (by decide),field_masked (by decide),Nat.zero_or]
  · rw [field_above (by decide),field_masked (by decide),Nat.zero_or]
  · rw [field_above (by decide),field_masked (by decide),Nat.zero_or]

theorem last_iff {n home i : Nat} (inside : i + 1 < n) :
    (home + n - 1) % n = (home + 1 + i) % n ↔ i + 2 = n := by
  have whole : home + n - 1 = home + 1 + (n - 2) := by omega
  rw [whole]
  constructor
  · intro same
    have offset : (n - 2) % n = i % n := Nat.ModEq.add_left_cancel' (home + 1) same
    rw [Nat.mod_eq_of_lt (by omega),Nat.mod_eq_of_lt (by omega)] at offset
    omega
  · intro last
    rw [← last,Nat.add_sub_cancel]

theorem signalCallback_relays {n home steps i fuel : Nat} {localKernfsId : Nat → Nat} (found : localKernfsId m.peerId = home)
    (inside : i + 1 < n) (enough : n ≤ steps + 2) (turns : n ≤ fuel + (i + 1))
    (carried : decodeRsyncMetadata imm = (relayed n home steps m i).decoded) :
    signalCallback n localKernfsId fuel ((home + 1 + i) % n) imm =
      (List.range' i (n - 1 - i)).map (relayed n home steps m) := by
  induction fuel generalizing i imm with
  | zero => omega
  | succ fuel ih =>
    have requester : (decodeRsyncMetadata imm).requesterId = m.peerId := congrArg Decoded.requesterId carried
    have acks : ((decodeRsyncMetadata imm).ack != 0) = m.ack := by
      rw [carried]
      unfold relayed
      cases m.ack <;> rfl
    have length : n - 1 - i = (n - 2 - i) + 1 := by omega
    rw [length,List.range'_succ,List.map_cons]
    unfold signalCallback
    dsimp only
    rw [requester,found,acks]
    by_cases last : i + 2 = n
    · rw [(last_iff inside).mpr last]
      have ended : n - 2 - i = 0 := by omega
      simp [ended,relayed,last,carried]
    · have further : ((home + n - 1) % n == (home + 1 + i) % n) = false :=
        beq_false_of_ne fun same => last ((last_iff inside).mp same)
      have left : (decodeRsyncMetadata imm).steps = steps - i := congrArg Decoded.steps carried
      have handed : decodeRsyncMetadata (nextRsyncMetadata imm) = (relayed n home steps m (i + 1)).decoded := by
        rw [next_fields (by rw [decode_fields] at left; dsimp only at left; omega),left,carried,relayed,relayed,Nat.sub_sub]
      have moved : ((home + 1 + i) % n + 1) % n = (home + 1 + (i + 1)) % n := by
        rw [Nat.mod_add_mod,add_assoc]
      rw [further,moved]
      have rest := ih (by omega) (by omega) handed
      rw [show n - 1 - (i + 1) = n - 2 - i by omega] at rest
      simp [rest,relayed,last,carried]

theorem chain_relays_iff (n rf : Nat) (localKernfsId : Nat → Nat) (allowed : rf ≤ n) :
    Relays n rf localKernfsId ↔ 0 < rf ∧ (2 < n → rf ≤ 4 ∧ n ≤ rf + 1) := by
  constructor
  · intro relays
    -- the six low bits of the block count are those that the steps can reach
    have fits : (⟨0,1,262144,false,false⟩ : Message).Fits := ⟨by decide,by decide,by decide⟩
    obtain ⟨steps,enough,sent⟩ := relays _ fits
    have sent := sent (n + 1) (by unfold nrHops; split <;> omega)
    unfold rpcReplicateLog at sent
    split at sent
    · cases sent
    · rename_i some_
      refine ⟨Nat.pos_of_ne_zero some_,fun many => ?_⟩
      have hops : nrHops n = (n - 2) + 1 := by
        rw [nrHops,if_pos many]
        omega
      rw [if_pos many,hops,List.range_succ_eq_map,signalCallback,List.map_cons] at sent
      have first := congrArg Hop.decoded (List.head_eq_of_cons_eq (Option.some.inj sent))
      dsimp only [relayed] at first
      rw [generate_fields rf fits,Decoded.mk.injEq] at first
      obtain ⟨_,blocks,left,_⟩ := first
      dsimp only at blocks left
      have reached : (rf - 1) % 2 ^ 8 / 4 < 2 ^ 6 := by omega
      rw [show (262144 + 4095) / 4096 = 2 ^ 6 * 1 by decide,← Nat.two_pow_add_eq_or_of_lt reached] at blocks
      omega
  · rintro ⟨positive,far⟩ m fits
    by_cases many : 2 < n
    · obtain ⟨few,reach⟩ := far many
      refine ⟨rf - 1,by omega,fun fuel turns => ?_⟩
      have hops : nrHops n = n - 1 := if_pos many
      have carried : decodeRsyncMetadata (generateRsyncMetadata rf m) =
          (relayed n (localKernfsId m.peerId) (rf - 1) m 0).decoded := by
        rw [generate_fields rf fits,relayed,Nat.mod_eq_of_lt (show rf - 1 < 2 ^ 8 by omega),
          Nat.div_eq_of_lt (show rf - 1 < 4 by omega),Nat.mod_eq_of_lt (show rf - 1 < 4 by omega),Nat.or_zero,Nat.sub_zero]
      rw [rpcReplicateLog,if_neg (by omega),if_pos many,hops,List.range_eq_range']
      exact congrArg some (signalCallback_relays rfl (by omega) (by omega) (by omega) carried)
    · refine ⟨n,by omega,fun fuel _ => ?_⟩
      rw [rpcReplicateLog,if_neg (by omega),if_neg many,nrHops,if_neg many]
      rfl

theorem chain_relays_three : Relays 3 3 fun _ => 2 := (chain_relays_iff 3 3 _ (by decide)).mpr (by decide)

-- Five nodes that all get a copy: eight blocks arrive as nine and then as 1048575; likewise behind the first of three
-- nodes if the replication factor is 1.
theorem steps_spoil_block_count :
    (rpcReplicateLog 5 5 (fun _ => 0) 2 ⟨5,1,32768,false,true⟩).map
        (List.map fun hop => (hop.node,hop.decoded.seqn,hop.decoded.nLogBlk)) = some [(1,1,9),(2,3,1048575)] ∧
      (rpcReplicateLog 3 1 (fun _ => 0) 2 ⟨3,1,32768,false,true⟩).map
        (List.map fun hop => (hop.node,hop.decoded.seqn,hop.decoded.nLogBlk)) = some [(1,1,8),(2,3,1048575)] := by
  decide

end Assise.ChainForwarding
