-- The state of a randpa engine and of its round, and the helpers of the engine
-- that the round calls back: `send`, `bcast`, `on_proof_gained` and `update_lib`.
import Randpa.PrefixTree

namespace randpa_finality

/-! ## The round -/

/-- `randpa_round::state_type`. -/
inductive StateType
  | init
  | prevote
  | readyToPrecommit
  | precommit
  | done
  | fail
deriving DecidableEq, Repr

/-- `randpa_round`. The tree is the engine's, shared; the round holds its best node by
its place in the tree, `none` for a null pointer. The three callbacks of the C++ round are
the engine's `bcast` and `finish_round`. -/
structure RandpaRound where
  num : UInt32
  primary : PublicKey
  state : StateType
  proof : ProofType
  bestNode : Option Nat
  signatureProviders : List PublicKey
  prevotedKeys : KeySet
  precommitedKeys : KeySet
deriving DecidableEq, Repr

/-- How a call of the engine or of its round fails: an `FC_ASSERT` that does not hold,
with its message, or a read through a null `best_node`. -/
inductive RandpaError
  | assertion (msg : String)
  | nullBestNode
deriving DecidableEq, Repr

/-! ## The engine -/

/-- `boost::compute::detail::lru_cache<digest_type, boost::blank>` as randpa uses it: the
digests, the newest first. `contains` does not refresh a digest, so a full cache drops the
oldest one it took. -/
structure LruCache where
  capacity : Nat
  entries : List Digest
deriving DecidableEq, Repr

namespace LruCache

/-- `contains(digest_type::hash(msg))`. -/
def contains (c : LruCache) (d : NetMsgData) : Bool := d.digest ∈ c.entries

/-- `insert(digest_type::hash(msg), {})`. -/
def insert (c : LruCache) (d : NetMsgData) : LruCache :=
  if d.digest ∈ c.entries then c
  else { c with entries := d.digest :: if c.entries.length < c.capacity then c.entries else c.entries.dropLast }

def clear (c : LruCache) : LruCache := { c with entries := [] }

end LruCache

/-- `randpa::round_width`. -/
def roundWidth : UInt32 := 2
/-- `randpa::prevote_width`. -/
def prevoteWidth : UInt32 := 1
/-- `randpa::msg_expiration_ms`. -/
def msgExpirationMs : Nat := 1000
/-- `_proofs_cache_size`, the capacity of `_last_proofs`. -/
def proofsCacheSize : Nat := 2
/-- `_messages_cache_size`. -/
def messagesCacheSize : Nat := 100 * 100 * 100
/-- `_max_finality_lag_blocks`. The C++ constant is an `int32_t`; it is compared with a
`uint32_t` difference, so it is converted to `uint32_t`. -/
def maxFinalityLagBlocks : UInt32 := 69 * 12 * 2 * 2

/-- `randpa`, the engine. `is_block_producer`, the signature providers, the public keys
and `sig_provs_by_key` are its configuration; a signature provider is modelled by the key
it signs with. `outbox` is what the engine gave its output channels, oldest first. -/
structure Randpa where
  signatureProviders : List PublicKey
  publicKeys : List PublicKey
  sigProvsByKey : KeyMap PublicKey
  isBlockProducer : Bool
  prefixTree : PrefixChainTree
  round : Option RandpaRound
  lib : BlockId
  lastProovedBlockNum : UInt32
  peers : KeyMap UInt32
  peerMessages : LruCache
  selfMessages : LruCache
  lastProofs : List ProofType
  isSyncing : Bool
  isFrozen : Bool
  done : Bool
  outbox : List RandpaOutput

namespace Randpa

/-- The engine before `start`, with the role, providers, keys and providers by key the host
has set: no round, empty caches, and a placeholder tree that `start` replaces. `Configured`
says which of these the host can build. -/
def configured (isBp : Bool) (providers keys : List PublicKey) (byKey : KeyMap PublicKey) :
    Randpa where
  signatureProviders := providers
  publicKeys := keys
  sigProvsByKey := byKey
  isBlockProducer := isBp
  prefixTree := PrefixChainTree.single BlockId.zero
  round := none
  lib := BlockId.zero
  lastProovedBlockNum := 0
  peers := KeyMap.empty
  peerMessages := ⟨messagesCacheSize, []⟩
  selfMessages := ⟨messagesCacheSize, []⟩
  lastProofs := []
  isSyncing := false
  isFrozen := false
  done := false
  outbox := []

/-- `set_signature_providers(signature_providers, public_keys)`: only a producer takes
providers, as many as keys, and the provider of each key is the one at its place. A provider
is modelled by the key it signs with. -/
def setSignatureProviders (e : Randpa) (providers keys : List PublicKey) : Except RandpaError Randpa :=
  if !e.isBlockProducer then
    .error (.assertion "failed adding signature provider to the full node; use --producer-name option")
  else if providers.length != keys.length then
    .error (.assertion "number of signature providers and number of public keys differ")
  else .ok { e with
    signatureProviders := providers
    publicKeys := keys
    sigProvsByKey := (keys.zip providers).foldl (fun m kp => m.assign kp.1 kp.2) KeyMap.empty }

/-- `set_type_block_producer()`. -/
def setTypeBlockProducer (e : Randpa) : Randpa := { e with isBlockProducer := true }

/-- `add_signature_provider(signature_provider, public_key)`, which the source marks as not
to be used, but still offers. -/
def addSignatureProvider (e : Randpa) (provider key : PublicKey) : Except RandpaError Randpa :=
  if !e.isBlockProducer then
    .error (.assertion "failed adding signature provider to the full node; use --producer-name option")
  else .ok { e with
    signatureProviders := e.signatureProviders ++ [provider]
    publicKeys := e.publicKeys ++ [key]
    sigProvsByKey := e.sigProvsByKey.assign key provider }

/-- The engines the host builds before `start`: `randpa()`, which gives a full node one
provider of a fresh random key and the public key `public_key_type{}` (both `0` here), then
its setters, each any number of times. -/
inductive Configured : Randpa → Prop
  | new : Configured (configured false [0] [0] KeyMap.empty)
  | setTypeBlockProducer {e : Randpa} : Configured e → Configured e.setTypeBlockProducer
  | setSignatureProviders {e e' : Randpa} {providers keys : List PublicKey} :
      Configured e → e.setSignatureProviders providers keys = .ok e' → Configured e'
  | addSignatureProvider {e e' : Randpa} {provider key : PublicKey} :
      Configured e → e.addSignatureProvider provider key = .ok e' → Configured e'

/-- The setters change the configuration fields only. -/
theorem Configured.eq_configured {e : Randpa} (h : Configured e) :
    ∃ isBp providers keys byKey, e = configured isBp providers keys byKey := by
  induction h with
  | new => exact ⟨_, _, _, _, rfl⟩
  | setTypeBlockProducer _ ih => obtain ⟨_, _, _, _, rfl⟩ := ih; exact ⟨_, _, _, _, rfl⟩
  | setSignatureProviders _ hs ih | addSignatureProvider _ hs ih =>
    obtain ⟨_, _, _, _, rfl⟩ := ih
    simp only [Randpa.setSignatureProviders, Randpa.addSignatureProvider] at hs
    split_ifs at hs
    cases hs; exact ⟨_, _, _, _, rfl⟩

/-- `start(tree)`: the engine takes the tree, and its root as the last irreversible block.
The channels are the model's `outbox`, so only the assertion on the providers is left. -/
def start (e : Randpa) (tree : PrefixChainTree) : Except RandpaError Randpa :=
  if e.isBlockProducer && e.signatureProviders.isEmpty then
    .error (.assertion "!_signature_providers.empty()")
  else .ok { e with prefixTree := tree, lib := tree.rootId }

/-- `start` on an engine the host built sets the tree and, from its root, the last
irreversible block, and nothing else. -/
theorem Configured.start_eq {e0 e : Randpa} {tree : PrefixChainTree} (hc : Configured e0)
    (hs : e0.start tree = .ok e) : ∃ isBp providers keys byKey,
      e = { configured isBp providers keys byKey with prefixTree := tree, lib := tree.rootId } := by
  obtain ⟨_, _, _, _, rfl⟩ := hc.eq_configured
  unfold start at hs
  split at hs
  · cases hs
  · cases hs; exact ⟨_, _, _, _, rfl⟩

/-- `send(ses_id, msg)`. -/
def send (e : Randpa) (sesId : UInt32) (data : NetMsgData) : Randpa :=
  { e with outbox := e.outbox ++ [RandpaOutput.send sesId data] }

/-- `bcast(msg)`: unless its digest is cached, send the message to every peer, then cache
the digest. -/
def bcast (e : Randpa) (data : NetMsgData) : Randpa :=
  if e.peerMessages.contains data then e
  else
    { e with
      outbox := e.outbox ++ e.peers.values.map (RandpaOutput.send · data)
      peerMessages := e.peerMessages.insert data }

/-- `on_proof_gained(proof)`: cache the proof, publish its block on the finality channel,
and broadcast a finality notice. -/
def onProofGained (e : Randpa) (proof : ProofType) : Randpa :=
  let e := { e with
    lastProofs := (proof :: e.lastProofs).take proofsCacheSize
    lastProovedBlockNum := getBlockNum proof.bestBlock
    outbox := e.outbox ++ [RandpaOutput.finality proof.bestBlock] }
  e.bcast (.finalityNotice ⟨⟨proof.roundNum, proof.bestBlock⟩, e.signatureProviders⟩)

/-- `update_lib(lib_id)`: the block becomes the root of the tree, or a fresh root when the
tree does not hold it, and the last irreversible block. -/
def updateLib (e : Randpa) (libId : BlockId) : Randpa :=
  let tree := match hf : e.prefixTree.find libId with
    | some h => e.prefixTree.setRoot h (e.prefixTree.find_lt hf)
    | none => e.prefixTree.setFreshRoot libId
  { e with prefixTree := tree, lib := libId }

end Randpa

end randpa_finality
