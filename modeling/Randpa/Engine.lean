-- The engine of randpa (`randpa` in randpa.hpp): the schedule of rounds, the
-- handlers of events and network messages, the proof check, and `process_msg`,
-- which the worker thread runs on each message of the queue.
import Randpa.Round

namespace randpa_finality

/-- `round_num(block_id)`, in `uint32_t`: block 0 wraps around. -/
def roundNum (id : BlockId) : UInt32 := (getBlockNum id - 1) / roundWidth

/-- `num_in_round(block_id)`. -/
def numInRound (id : BlockId) : UInt32 := (getBlockNum id - 1) % roundWidth

namespace Randpa

variable (e : Randpa)

/-- `should_start_round(block_id)`. -/
def shouldStartRound (id : BlockId) : Bool :=
  if getBlockNum id < 1 then false
  else match e.round with
    | none => true
    | some r => roundNum id > r.num

/-- `should_end_prevote(block_id)`. -/
def shouldEndPrevote (id : BlockId) : Bool :=
  match e.round with
  | none => false
  | some r => roundNum id == r.num && numInRound id == prevoteWidth

/-- `is_active_bp(block_id)`: the node is a block producer with a key active at the block. -/
def isActiveBp (id : BlockId) : Bool :=
  if !e.isBlockProducer then false
  else match e.prefixTree.find id with
    | none => false
    | some h => e.publicKeys.any fun k => decide (k ∈ (e.prefixTree.nodeAt h).activeBpKeys)

/-- `get_active_signature_providers(active_bp_keys)`: the providers of the active keys, in
the order of the keys. -/
def getActiveSignatureProviders (active : KeySet) : List PublicKey :=
  active.keys.filterMap e.sigProvsByKey.find?

/-- `remove_round()`. -/
def removeRound : Randpa :=
  { e with
    peerMessages := e.peerMessages.clear
    selfMessages := e.selfMessages.clear
    prefixTree := e.prefixTree.removeConfirmations
    round := none }

/-- `new_round(round_num, primary, active_bp_keys)`: the new round prevotes as it is built,
and becomes the current round. -/
def newRound (num : UInt32) (primary : PublicKey) (active : KeySet) : Except RandpaError Randpa := do
  let (r, e) ← RandpaRound.new num primary (e.getActiveSignatureProviders active) e
  .ok { e with round := some r }

/-- `_round->f()`: a method of the current round, which stays the current round; nothing
when there is no round. -/
def callRound (f : RandpaRound → Randpa → Except RandpaError (RandpaRound × Randpa)) :
    Except RandpaError Randpa :=
  match e.round with
  | none => .ok e
  | some r => do
    let (r, e) ← f r e
    .ok { e with round := some r }

/-- The start of a round in `on(on_accepted_block_event)`: when one is due, the round is
removed, and a new one is made if the node is an active producer at the block. -/
def startRound (ev : OnAcceptedBlockEvent) : Except RandpaError Randpa :=
  if e.shouldStartRound ev.blockId then
    if e.removeRound.isActiveBp ev.blockId then
      e.removeRound.newRound (roundNum ev.blockId) ev.creatorKey ev.activeBpKeys
    else .ok e.removeRound
  else .ok e

/-- The part of `on(on_accepted_block_event)` after the sync and freeze flags are set:
unless syncing or frozen, start a round if one is due, and end the prevote phase at its
boundary block. -/
def scheduleRound (ev : OnAcceptedBlockEvent) : Except RandpaError Randpa :=
  if e.isSyncing || e.isFrozen then .ok e
  else do
    let e ← e.startRound ev
    if e.shouldEndPrevote ev.blockId then e.callRound RandpaRound.endPrevote else .ok e

/-- `on(on_accepted_block_event)`: put the block into the tree, set the sync and freeze
flags, and schedule the rounds. A block whose parent is not in the tree is skipped. -/
def onAcceptedBlock (ev : OnAcceptedBlockEvent) : Except RandpaError Randpa :=
  match e.prefixTree.insert ⟨ev.prevBlockId, [ev.blockId]⟩ ev.creatorKey ev.activeBpKeys with
  | none => .ok e
  | some tree =>
    let e := { e with
      prefixTree := tree
      isSyncing := ev.sync
      isFrozen := getBlockNum ev.blockId - getBlockNum e.lib > maxFinalityLagBlocks }
    e.scheduleRound ev

/-- `on(on_irreversible_event)`: a block above the root becomes the last irreversible
block. -/
def onIrreversible (id : BlockId) : Randpa :=
  if getBlockNum id ≤ getBlockNum e.prefixTree.rootId then e else e.updateLib id

/-- `on(on_new_peer_event)`: send the peer a handshake. -/
def onNewPeer (sesId : UInt32) : Randpa :=
  e.send sesId (.handshake ⟨⟨e.lib⟩, e.signatureProviders⟩)

/-- `process_round_msg(ses_id, msg)`, for a prevote or a precommit: drop it while syncing
or frozen, or when its digest is cached; otherwise cache it, broadcast it when it is of
the round of the head, and give it to the current round. -/
def processRoundMsg (data : NetMsgData) (msgRound : UInt32)
    (f : RandpaRound → Randpa → Except RandpaError (RandpaRound × Randpa)) :
    Except RandpaError Randpa :=
  if e.isSyncing || e.isFrozen then .ok e
  else if e.selfMessages.contains data then .ok e
  else
    let e := { e with selfMessages := e.selfMessages.insert data }
    let e := if roundNum (e.prefixTree.blockIdOf e.prefixTree.getHead) == msgRound then
      e.bcast data else e
    e.callRound f

/-- `on(finality_notice_msg)`: ask the peer for the proof, unless the node is an active
producer at the block and has proved it already. -/
def onFinalityNotice (sesId : UInt32) (msg : FinalityNoticeMsg) : Randpa :=
  if e.isActiveBp msg.data.bestBlock && getBlockNum msg.data.bestBlock ≤ e.lastProovedBlockNum then e
  else e.send sesId (.finalityReqProof ⟨⟨msg.data.roundNum⟩, e.signatureProviders⟩)

/-- `on(finality_req_proof_msg)`: send the first cached proof of that round. -/
def onFinalityReqProof (sesId : UInt32) (msg : FinalityReqProofMsg) : Randpa :=
  match e.lastProofs.find? (·.roundNum == msg.data.roundNum) with
  | some proof => e.send sesId (.proof ⟨proof, e.signatureProviders⟩)
  | none => e

/-- `randpa::validate_prevote(prevote, key, best_block, bp_keys)`, the check of a prevote
in a proof. -/
def validatePrevote (prevote : PrevoteType) (key : PublicKey) (best : BlockId)
    (bpKeys : KeySet) : Bool :=
  (prevote.baseBlock == best || prevote.blocks.contains best) && decide (key ∈ bpKeys)

/-- `randpa::validate_precommit(precommit, key, best_block, bp_keys)`. -/
def validatePrecommit (precommit : PrecommitType) (key : PublicKey) (best : BlockId)
    (bpKeys : KeySet) : Bool :=
  precommit.blockId == best && decide (key ∈ bpKeys)

/-- The signed votes of a list of messages: each message with each of its keys. -/
def signedVotes {T : Type} (msgs : List (NetworkMsg T)) : List (T × PublicKey) :=
  msgs.flatMap fun m => m.publicKeys.map (m.data, ·)

/-- The set of the keys of a list of signed votes. -/
def keysOf {T : Type} (votes : List (T × PublicKey)) : KeySet :=
  votes.foldl (fun s v => s.insert v.2) KeySet.empty

/-- `validate_proof(proof)`. Its loops return `false` at the first vote that fails, so the
proof is valid when the best block is in the tree, every prevote and every precommit
passes, and more than two thirds of the active keys precommitted. -/
def validateProof (proof : ProofType) : Bool :=
  match e.prefixTree.find proof.bestBlock with
  | none => false
  | some h =>
    let bpKeys := (e.prefixTree.nodeAt h).activeBpKeys
    let prevotedKeys := keysOf (signedVotes proof.prevotes)
    (signedVotes proof.prevotes).all (fun v => validatePrevote v.1 v.2 proof.bestBlock bpKeys) &&
      (signedVotes proof.precommits).all (fun v =>
        decide (v.2 ∈ prevotedKeys) && validatePrecommit v.1 v.2 proof.bestBlock bpKeys) &&
      (keysOf (signedVotes proof.precommits)).size > bpKeys.size * 2 / 3

/-- `if (_round && _round->get_num() == round_num) _round->set_state(done)`. -/
def markDone (num : UInt32) : Randpa :=
  match e.round with
  | some r => if r.num == num then { e with round := some (r.setState .done) } else e
  | none => e

/-- `on(proof_msg)`: a valid proof above the last proved block and above the last
irreversible block marks the current round done when the round numbers agree, and is
gained. -/
def onProof (msg : ProofMsg) : Randpa :=
  let proof := msg.data
  if e.isSyncing || e.isFrozen then e
  else if e.lastProovedBlockNum ≥ getBlockNum proof.bestBlock then e
  else if getBlockNum e.lib ≥ getBlockNum proof.bestBlock then e
  else if e.round.any (·.state == .done) then e
  else if !e.validateProof proof then e
  else (e.markDone proof.roundNum).onProofGained proof

/-- `on(handshake_msg)`: record the session of each key of the peer, and answer. -/
def onHandshake (sesId : UInt32) (msg : HandshakeMsg) : Randpa :=
  msg.publicKeys.foldl (fun e k =>
    ({ e with peers := e.peers.assign k sesId }).send sesId
      (.handshakeAns ⟨⟨e.lib⟩, e.signatureProviders⟩)) e

/-- `on(handshake_ans_msg)`: record the session of each key of the peer. -/
def onHandshakeAns (sesId : UInt32) (msg : HandshakeAnsMsg) : Randpa :=
  msg.publicKeys.foldl (fun e k => { e with peers := e.peers.assign k sesId }) e

/-- `process_net_msg(msg)` at time `now` (microseconds): an expired message is dropped,
and the others go to their handler. -/
def processNetMsg (now : Nat) (msg : RandpaNetMsg) : Except RandpaError Randpa :=
  if (now : Int) - msg.receiveTime * 1000000 > msgExpirationMs * 1000 then .ok e
  else match msg.data with
    | .prevote m => e.processRoundMsg (.prevote m) m.data.roundNum (RandpaRound.onPrevote m)
    | .precommit m => e.processRoundMsg (.precommit m) m.data.roundNum (RandpaRound.onPrecommit m)
    | .finalityNotice m => .ok (e.onFinalityNotice msg.sesId m)
    | .finalityReqProof m => .ok (e.onFinalityReqProof msg.sesId m)
    | .proof m => .ok (e.onProof m)
    | .handshake m => .ok (e.onHandshake msg.sesId m)
    | .handshakeAns m => .ok (e.onHandshakeAns msg.sesId m)

/-- `process_event(event)`. -/
def processEvent : RandpaEvent → Except RandpaError Randpa
  | .onAcceptedBlock ev => e.onAcceptedBlock ev
  | .onIrreversible id => .ok (e.onIrreversible id)
  | .onNewPeer sesId => .ok (e.onNewPeer sesId)

/-- `process_msg(msg)` at time `now`. -/
def processMsg (now : Nat) : RandpaMessage → Except RandpaError Randpa
  | .net msg => e.processNetMsg now msg
  | .event ev => e.processEvent ev

end Randpa

end randpa_finality
