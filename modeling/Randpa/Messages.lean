-- The messages of randpa and the events and outputs of the engine. The message
-- types live in `network_messages.hpp`, which is not among the sources: they are
-- modelled from the spec (sections 3 and 6); the events are those of `randpa.hpp`.
import Randpa.Basic

namespace randpa_finality

/-! ## Signed messages -/

/-- Modelled from the spec: `network_msg<T>` of `network_messages.hpp`, a payload and its
signatures. A signature is modelled by the key it recovers to. -/
structure NetworkMsg (T : Type) where
  data : T
  signatures : List PublicKey
deriving DecidableEq, Repr

/-- `public_keys()`: the keys recovered from the signatures, one per signature. -/
def NetworkMsg.publicKeys {T : Type} (m : NetworkMsg T) : List PublicKey := m.signatures

/-- Modelled from the spec: `chain_type` of `prefix_chain_tree.hpp`, an anchor block and a
path of blocks after it. -/
structure ChainType where
  baseBlock : BlockId
  blocks : List BlockId
deriving DecidableEq, Repr

/-- Modelled from the spec: `prevote_type`, a round and a branch of the tree. -/
structure PrevoteType where
  roundNum : UInt32
  baseBlock : BlockId
  blocks : List BlockId
deriving DecidableEq, Repr

/-- Modelled from the spec: `precommit_type`, a round and the block it finalizes. -/
structure PrecommitType where
  roundNum : UInt32
  blockId : BlockId
deriving DecidableEq, Repr

abbrev PrevoteMsg := NetworkMsg PrevoteType
abbrev PrecommitMsg := NetworkMsg PrecommitType

/-- Modelled from the spec: `proof_type`, the finality certificate. A default proof has
round 0, the zero block and no votes. -/
structure ProofType where
  roundNum : UInt32 := 0
  bestBlock : BlockId := BlockId.zero
  prevotes : List PrevoteMsg := []
  precommits : List PrecommitMsg := []
deriving DecidableEq, Repr

/-- Modelled from the spec: `finality_notice_type`. -/
structure FinalityNoticeType where
  roundNum : UInt32
  bestBlock : BlockId
deriving DecidableEq, Repr

/-- Modelled from the spec: `finality_req_proof_type`. -/
structure FinalityReqProofType where
  roundNum : UInt32
deriving DecidableEq, Repr

/-- Modelled from the spec: `handshake_type`, and `handshake_ans_type` with the same field. -/
structure HandshakeType where
  lib : BlockId
deriving DecidableEq, Repr

abbrev ProofMsg := NetworkMsg ProofType
abbrev FinalityNoticeMsg := NetworkMsg FinalityNoticeType
abbrev FinalityReqProofMsg := NetworkMsg FinalityReqProofType
abbrev HandshakeMsg := NetworkMsg HandshakeType
abbrev HandshakeAnsMsg := NetworkMsg HandshakeType

/-- Modelled from the spec: `randpa_net_msg_data`, the union of the network messages. -/
inductive NetMsgData
  | prevote (msg : PrevoteMsg)
  | precommit (msg : PrecommitMsg)
  | finalityNotice (msg : FinalityNoticeMsg)
  | finalityReqProof (msg : FinalityReqProofMsg)
  | proof (msg : ProofMsg)
  | handshake (msg : HandshakeMsg)
  | handshakeAns (msg : HandshakeAnsMsg)
deriving DecidableEq, Repr

/-- `digest_type::hash(msg)`, the hash of a message's serialized payload and signatures. The
hash does not see the message's kind: payloads of one layout hash alike, so a precommit and a
finality notice of one round and block (spec: both a round and a block id) share a digest
when the same keys sign them, as do a handshake and a handshake answer of one block. -/
inductive Digest
  | prevote (data : PrevoteType) (signatures : List PublicKey)
  | roundBlock (roundNum : UInt32) (blockId : BlockId) (signatures : List PublicKey)
  | reqProof (roundNum : UInt32) (signatures : List PublicKey)
  | proof (data : ProofType) (signatures : List PublicKey)
  | lib (blockId : BlockId) (signatures : List PublicKey)
deriving DecidableEq, Repr

/-- The digest of a network message. -/
def NetMsgData.digest : NetMsgData → Digest
  | .prevote m => .prevote m.data m.signatures
  | .precommit m => .roundBlock m.data.roundNum m.data.blockId m.signatures
  | .finalityNotice m => .roundBlock m.data.roundNum m.data.bestBlock m.signatures
  | .finalityReqProof m => .reqProof m.data.roundNum m.signatures
  | .proof m => .proof m.data m.signatures
  | .handshake m => .lib m.data.lib m.signatures
  | .handshakeAns m => .lib m.data.lib m.signatures

/-! ## Engine input and output -/

/-- `randpa_net_msg`: a message from a session, with the time (in seconds) it arrived. -/
structure RandpaNetMsg where
  sesId : UInt32
  data : NetMsgData
  receiveTime : Nat
deriving DecidableEq, Repr

/-- `on_accepted_block_event`. -/
structure OnAcceptedBlockEvent where
  blockId : BlockId
  prevBlockId : BlockId
  creatorKey : PublicKey
  activeBpKeys : KeySet
  sync : Bool
deriving DecidableEq, Repr

/-- `randpa_event_data`: an accepted block, an irreversible block, or a new peer. -/
inductive RandpaEvent
  | onAcceptedBlock (event : OnAcceptedBlockEvent)
  | onIrreversible (blockId : BlockId)
  | onNewPeer (sesId : UInt32)
deriving DecidableEq, Repr

/-- `randpa_message`: what the engine's queue holds. -/
inductive RandpaMessage
  | net (msg : RandpaNetMsg)
  | event (ev : RandpaEvent)
deriving DecidableEq, Repr

/-- What the engine hands to its output channels: a message for a session on the out
network channel, or a block on the finality channel. -/
inductive RandpaOutput
  | send (sesId : UInt32) (data : NetMsgData)
  | finality (blockId : BlockId)
deriving DecidableEq, Repr

/-- The block of a finality output. -/
def RandpaOutput.finalityOf : RandpaOutput → Option BlockId
  | .finality b => some b
  | .send _ _ => none

end randpa_finality
