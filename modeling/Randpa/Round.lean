-- The round of randpa (`randpa_round` in round.hpp): the prevote and precommit
-- phases, their checks, and the thresholds. A method takes the round and the
-- engine it calls back into, and gives both back, or the error that stops it.
import Randpa.State

namespace randpa_finality

namespace RandpaRound

/-- The round as its constructor has set the fields, before `prevote()` runs. -/
def create (num : UInt32) (primary : PublicKey) (providers : List PublicKey) : RandpaRound :=
  ⟨num, primary, .init, {}, none, providers, KeySet.empty, KeySet.empty⟩

/-- `set_state(s)`. -/
def setState (r : RandpaRound) (s : StateType) : RandpaRound := { r with state := s }

/-- `get_proof()`. -/
def getProof (r : RandpaRound) : Except RandpaError ProofType :=
  if r.state = .done then .ok r.proof else .error (.assertion "state should be `done`")

/-- `finish()`: a round that is not done fails. -/
def finish (r : RandpaRound) : Bool × RandpaRound :=
  if r.state ≠ .done then (false, r.setState .fail) else (true, r)

/-- `find_last_node(base_block, blocks)`: the last block of the path that the tree holds,
or else the base block. -/
def findLastNode (t : PrefixChainTree) (base : BlockId) (blocks : List BlockId) : Option Nat :=
  match blocks.reverse.find? (fun b => (t.find b).isSome) with
  | none => t.find base
  | some b => t.find b

/-- `is_prevote_threshold_reached(node)`. -/
def isPrevoteThresholdReached (t : PrefixChainTree) (h : Nat) : Bool :=
  t.confirmationNumber h > 2 * (t.nodeAt h).activeBpKeys.size / 3

/-- `is_precommit_threshold_reached()`. -/
def isPrecommitThresholdReached (r : RandpaRound) (t : PrefixChainTree) :
    Except RandpaError Bool :=
  match r.bestNode with
  | none => .error .nullBestNode
  | some h => .ok (r.proof.precommits.length > 2 * (t.nodeAt h).activeBpKeys.size / 3)

/-- `validate_prevote(msg, key)`: the round is right, the key has not prevoted, the path
ends in the tree, and the key is active at the node it ends in. -/
def validatePrevote (r : RandpaRound) (t : PrefixChainTree) (msg : PrevoteMsg)
    (key : PublicKey) : Bool :=
  r.num == msg.data.roundNum && !decide (key ∈ r.prevotedKeys) &&
    match findLastNode t msg.data.baseBlock msg.data.blocks with
    | none => false
    | some h => decide (key ∈ (t.nodeAt h).activeBpKeys)

/-- `validate_precommit(msg, key)`: the round is right, the key has not precommitted, the
block is the best block, and the key's prevote is at the best node. -/
def validatePrecommit (r : RandpaRound) (t : PrefixChainTree) (msg : PrecommitMsg)
    (key : PublicKey) : Except RandpaError Bool :=
  if r.num ≠ msg.data.roundNum then .ok false
  else if key ∈ r.precommitedKeys then .ok false
  else match r.bestNode with
    | none => .error .nullBestNode
    | some h => .ok (msg.data.blockId == t.blockIdOf h && (t.nodeAt h).hasConfirmation key)

/-- `add_prevote(msg)`: put the prevote into the tree, mark the key, and test the
threshold at the node where the prevote lands. -/
def addPrevote (msg : PrevoteMsg) (r : RandpaRound) (e : Randpa) :
    Except RandpaError (RandpaRound × Randpa) :=
  match msg.publicKeys with
  | [key] =>
    match e.prefixTree.addConfirmations ⟨msg.data.baseBlock, msg.data.blocks⟩ key msg with
    | (_, none) => .error (.assertion "confirmation should be insertable")
    | (tree, some h) =>
      let r := { r with prevotedKeys := r.prevotedKeys.insert key }
      let e := { e with prefixTree := tree }
      if r.state ≠ .readyToPrecommit && isPrevoteThresholdReached tree h then
        .ok ({ r with state := .readyToPrecommit, bestNode := some h }, e)
      else .ok (r, e)
  | _ => .error (.assertion "invalid number of public keys in msg; should be 1")

end RandpaRound

/-- `randpa::finish_round()`, the round's completion callback, on the round `r` that
calls it: if the round is done and its best block is above the last irreversible block,
the proof is gained and the block becomes the last irreversible block. -/
def Randpa.finishRound (e : Randpa) (r : RandpaRound) :
    Except RandpaError (RandpaRound × Randpa) :=
  match r.finish with
  | (false, r) => .ok (r, e)
  | (true, r) => do
    let proof ← r.getProof
    if getBlockNum e.lib < getBlockNum proof.bestBlock then
      .ok (r, (e.onProofGained proof).updateLib proof.bestBlock)
    else .ok (r, e)

namespace RandpaRound

/-- `add_precommit(msg)`: mark the key, keep the precommit in the proof, and when the
precommits pass the threshold the round is done and calls back `finish_round`. -/
def addPrecommit (msg : PrecommitMsg) (r : RandpaRound) (e : Randpa) :
    Except RandpaError (RandpaRound × Randpa) :=
  match msg.publicKeys with
  | [key] =>
    let r := { r with
      precommitedKeys := r.precommitedKeys.insert key
      proof := { r.proof with precommits := r.proof.precommits ++ [msg] } }
    if r.state = .done then .ok (r, e)
    else do
      let reached ← r.isPrecommitThresholdReached e.prefixTree
      if reached then e.finishRound (r.setState .done) else .ok (r, e)
  | _ => .error (.assertion "invalid number of public keys in msg; should be 1")

/-- The loop of `on(prevote_msg)`: each key of the message is checked and added on its own. -/
def onPrevoteLoop (msg : PrevoteMsg) :
    List PublicKey → RandpaRound → Randpa → Except RandpaError (RandpaRound × Randpa)
  | [], r, e => .ok (r, e)
  | k :: ks, r, e =>
    if r.validatePrevote e.prefixTree msg k then do
      let (r, e) ← r.addPrevote ⟨msg.data, [k]⟩ e
      onPrevoteLoop msg ks r e
    else onPrevoteLoop msg ks r e

/-- `on(prevote_msg)`: taken only in `prevote` and `ready_to_precommit`. -/
def onPrevote (msg : PrevoteMsg) (r : RandpaRound) (e : Randpa) :
    Except RandpaError (RandpaRound × Randpa) :=
  if r.state ≠ .prevote && r.state ≠ .readyToPrecommit then .ok (r, e)
  else onPrevoteLoop msg msg.publicKeys r e

/-- The loop of `on(precommit_msg)`. -/
def onPrecommitLoop (msg : PrecommitMsg) :
    List PublicKey → RandpaRound → Randpa → Except RandpaError (RandpaRound × Randpa)
  | [], r, e => .ok (r, e)
  | k :: ks, r, e => do
    if ← r.validatePrecommit e.prefixTree msg k then
      let (r, e) ← r.addPrecommit ⟨msg.data, [k]⟩ e
      onPrecommitLoop msg ks r e
    else onPrecommitLoop msg ks r e

/-- `on(precommit_msg)`: taken only in `precommit` and `ready_to_precommit`. -/
def onPrecommit (msg : PrecommitMsg) (r : RandpaRound) (e : Randpa) :
    Except RandpaError (RandpaRound × Randpa) :=
  if r.state ≠ .precommit && r.state ≠ .readyToPrecommit then .ok (r, e)
  else onPrecommitLoop msg msg.publicKeys r e

/-- The loop of `prevote()`: one prevote of each local key, added with no check. -/
def prevoteLoop (data : PrevoteType) :
    List PublicKey → RandpaRound → Randpa → Except RandpaError (RandpaRound × Randpa)
  | [], r, e => .ok (r, e)
  | p :: ps, r, e => do
    let (r, e) ← r.addPrevote ⟨data, [p]⟩ e
    prevoteLoop data ps r e

/-- The loop of `precommit()`: one precommit of each local key, added with no check. -/
def precommitLoop (data : PrecommitType) :
    List PublicKey → RandpaRound → Randpa → Except RandpaError (RandpaRound × Randpa)
  | [], r, e => .ok (r, e)
  | p :: ps, r, e => do
    let (r, e) ← r.addPrecommit ⟨data, [p]⟩ e
    precommitLoop data ps r e

/-- `prevote()`: prevote for the branch that ends at the primary's last block, with every
local key, and broadcast one prevote that carries all their signatures. -/
def prevote (r : RandpaRound) (e : Randpa) : Except RandpaError (RandpaRound × Randpa) :=
  if r.state ≠ .init then .error (.assertion "state should be `init`")
  else
    let r := r.setState .prevote
    match e.prefixTree.getLastInsertedBlock r.primary with
    | none => .ok (r, e)
    | some h => do
      let chain := e.prefixTree.getBranch (e.prefixTree.blockIdOf h)
      let data : PrevoteType := ⟨r.num, chain.baseBlock, chain.blocks⟩
      let (r, e) ← prevoteLoop data r.signatureProviders r e
      .ok (r, e.bcast (.prevote ⟨data, r.signatureProviders⟩))

/-- `precommit()`: precommit the best block with every local key, and broadcast one
precommit that carries all their signatures. -/
def precommit (r : RandpaRound) (e : Randpa) : Except RandpaError (RandpaRound × Randpa) :=
  if r.state ≠ .readyToPrecommit then .error (.assertion "state should be `ready_to_precommit`")
  else
    let r := r.setState .precommit
    match r.bestNode with
    | none => .error .nullBestNode
    | some h => do
      let data : PrecommitType := ⟨r.num, e.prefixTree.blockIdOf h⟩
      let (r, e) ← precommitLoop data r.signatureProviders r e
      .ok (r, e.bcast (.precommit ⟨data, r.signatureProviders⟩))

/-- `end_prevote()`: a round that has not reached the prevote threshold fails; otherwise
the proof takes the best block and the prevotes held at the best node, and the round
precommits. -/
def endPrevote (r : RandpaRound) (e : Randpa) : Except RandpaError (RandpaRound × Randpa) :=
  if r.state ≠ .readyToPrecommit then .ok (r.setState .fail, e)
  else match r.bestNode with
    | none => .error .nullBestNode
    | some h =>
      let n := e.prefixTree.nodeAt h
      let r := { r with proof := { r.proof with
        roundNum := r.num
        bestBlock := n.blockId
        prevotes := r.proof.prevotes ++ n.confirmationData.values } }
      r.precommit e

/-- `randpa_round(...)`: the constructor sets the fields and prevotes. -/
def new (num : UInt32) (primary : PublicKey) (providers : List PublicKey) (e : Randpa) :
    Except RandpaError (RandpaRound × Randpa) :=
  (create num primary providers).prevote e

end RandpaRound

end randpa_finality
