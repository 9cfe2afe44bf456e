-- A cluster of engines. Each engine runs the engine model on its own queue; accepted
-- blocks come from one global block tree, and the network hands an engine what a peer sent
-- it, or what only byzantine keys signed, in any order, as often as it likes, or never.
-- Session ids are the places of the engines: engine `i` reaches engine `j` on session `j`.
import Randpa.Reachable

namespace randpa_finality

/-! ## Signatures and the network -/

/-- The keys that signed a message, the votes inside a proof included. -/
def NetMsgData.signers : NetMsgData → List PublicKey
  | .prevote m => m.publicKeys
  | .precommit m => m.publicKeys
  | .finalityNotice m => m.publicKeys
  | .finalityReqProof m => m.publicKeys
  | .proof m =>
    m.publicKeys ++ m.data.prevotes.flatMap (·.publicKeys) ++ m.data.precommits.flatMap (·.publicKeys)
  | .handshake m => m.publicKeys
  | .handshakeAns m => m.publicKeys

/-- The global block tree: the accepted-block events of its blocks. -/
abbrev BlockTree := List OnAcceptedBlockEvent

/-- The blocks from `b` up through the parents that the global tree gives, `b` first. -/
def BlockTree.chainUp (tree : BlockTree) : Nat → BlockId → List BlockId
  | 0, b => [b]
  | n + 1, b => b :: match tree.find? (·.blockId == b) with
    | some ev => tree.chainUp n ev.prevBlockId
    | none => []

/-- One of the two blocks is the other or an ancestor of it in the global tree. -/
def BlockTree.onOneChain (tree : BlockTree) (a b : BlockId) : Bool :=
  a ∈ tree.chainUp tree.length b || b ∈ tree.chainUp tree.length a

/-- Each block's parent is one of the blocks `known` or a block listed before it, its number
is its parent's plus one, and every block has the active keys `active`. -/
def BlockTree.grows (active : KeySet) : List BlockId → BlockTree → Bool
  | _, [] => true
  | known, ev :: tree =>
    ev.activeBpKeys == active &&
      known.any (fun p => p == ev.prevBlockId && getBlockNum ev.blockId == getBlockNum p + 1) &&
      BlockTree.grows active (ev.blockId :: known) tree

/-- A global tree grown from the genesis block `g`, every block with the active keys `active`. -/
def BlockTree.wellFormed (tree : BlockTree) (g : BlockId) (active : KeySet) : Bool :=
  BlockTree.grows active [g] tree

/-! ## The cluster -/

/-- The engines, by place, and the byzantine keys. -/
structure Cluster where
  engines : List Randpa
  byzantine : KeySet

/-- What the host and the network hand the engines of a cluster. -/
inductive ClusterStep
  /-- Engine `i` accepts a block of the global tree. -/
  | accepted (i : Nat) (ev : OnAcceptedBlockEvent)
  /-- Engine `i` learns that a block it published is irreversible. -/
  | irreversible (i : Nat) (id : BlockId)
  /-- Engine `i` meets the peer on session `ses`. -/
  | newPeer (i : Nat) (ses : Nat)
  /-- Engine `dst` gets the message `d` that engine `src` sent it. -/
  | deliver (src dst : Nat) (d : NetMsgData)
  /-- Engine `i` gets on session `ses` a message that only byzantine keys signed. -/
  | forge (i ses : Nat) (d : NetMsgData)
deriving DecidableEq, Repr

namespace Cluster

/-- Engine `i` handles message `m`; `none` if there is no engine `i` or its handler fails.
Every message is handled at time 0 and carries the arrival time 0, so none expires: a
message the network holds back is one it delivers later or never. -/
def feed (c : Cluster) (i : Nat) (m : RandpaMessage) : Option Cluster :=
  match c.engines[i]? with
  | none => none
  | some e =>
    match e.processMsg 0 m with
    | .ok e' => some { c with engines := c.engines.set i e' }
    | .error _ => none

/-- The blocks that engine `i` published on its finality channel, oldest first. -/
def finalized (c : Cluster) (i : Nat) : List BlockId :=
  match c.engines[i]? with
  | some e => published e.outbox
  | none => []

/-- A step of the cluster over the global tree `tree`, `none` if it is not allowed. -/
def step (tree : BlockTree) (c : Cluster) : ClusterStep → Option Cluster
  | .accepted i ev => if ev ∈ tree then c.feed i (.event (.onAcceptedBlock ev)) else none
  | .irreversible i id => if id ∈ c.finalized i then c.feed i (.event (.onIrreversible id)) else none
  | .newPeer i ses => c.feed i (.event (.onNewPeer ses.toUInt32))
  | .deliver src dst d =>
    match c.engines[src]? with
    | some e =>
      if RandpaOutput.send dst.toUInt32 d ∈ e.outbox then c.feed dst (.net ⟨src.toUInt32, d, 0⟩)
      else none
    | none => none
  | .forge i ses d =>
    if d.signers.all (· ∈ c.byzantine) then c.feed i (.net ⟨ses.toUInt32, d, 0⟩) else none

/-- The steps of a list, in order. -/
def run (tree : BlockTree) (c : Cluster) : List ClusterStep → Option Cluster
  | [] => some c
  | s :: ss => (c.step tree s).bind (·.run tree ss)

/-- Every engine of the steps accepts a block only after its parent, unless the parent is
the genesis block `g`; `seen` holds the engines' blocks accepted so far. -/
def parentsFirst (g : BlockId) : List (Nat × BlockId) → List ClusterStep → Bool
  | _, [] => true
  | seen, .accepted i ev :: ss =>
    (ev.prevBlockId == g || decide ((i, ev.prevBlockId) ∈ seen)) &&
      parentsFirst g ((i, ev.blockId) :: seen) ss
  | seen, _ :: ss => parentsFirst g seen ss

/-- The engines each configured with one key, which it signs with, and started on the tree
of the genesis block `g`. -/
def started (g : BlockId) (keys : List PublicKey) (byzantine : KeySet) : Cluster :=
  ⟨keys.map fun k => { Randpa.configured true [k] [k] (KeyMap.empty.emplace k k) with
    prefixTree := .single g, lib := g }, byzantine⟩

end Cluster

/-- The clusters that runs over the global tree `tree` reach, from engines started on the
tree of the genesis block `g`. -/
inductive ClusterReachable (g : BlockId) (tree : BlockTree) : Cluster → Prop
  | start {c : Cluster} :
      (∀ e ∈ c.engines, ∃ e0 : Randpa, e0.Configured ∧ e0.start (.single g) = .ok e) →
      ClusterReachable g tree c
  | step {c c' : Cluster} {s : ClusterStep} :
      ClusterReachable g tree c → c.step tree s = some c' → ClusterReachable g tree c'

theorem ClusterReachable.run {g : BlockId} {tree : BlockTree} {c c' : Cluster}
    (h : ClusterReachable g tree c) : ∀ {ss : List ClusterStep}, c.run tree ss = some c' →
      ClusterReachable g tree c'
  | [], hr => by cases hr; exact h
  | _ :: _, hr => by
    obtain ⟨c1, h1, h2⟩ := Option.bind_eq_some.1 hr
    exact (h.step h1).run h2

/-- A run's last cluster, when a decidable property holds of it. -/
theorem ClusterReachable.of_run {g : BlockId} {tree : BlockTree} {c : Cluster}
    {ss : List ClusterStep} {P : Cluster → Prop} [DecidablePred P] (h : ClusterReachable g tree c)
    (hp : (c.run tree ss).map (fun c => decide (P c)) = some true) :
    ∃ c', ClusterReachable g tree c' ∧ P c' := by
  cases hr : c.run tree ss with
  | none => simp [hr] at hp
  | some c' =>
    simp only [hr, Option.map_some', Option.some.injEq, decide_eq_true_eq] at hp
    exact ⟨c', h.run hr, hp⟩

theorem started_reachable (g : BlockId) (tree : BlockTree) (keys : List PublicKey) (byz : KeySet) :
    ClusterReachable g tree (Cluster.started g keys byz) := by
  refine .start fun e he => ?_
  obtain ⟨k, -, rfl⟩ := List.mem_map.1 he
  exact ⟨_, @Randpa.Configured.setSignatureProviders _ _ [k] [k] (.setTypeBlockProducer .new) rfl, rfl⟩

/-! ## Two forks finalized with no byzantine key -/

/-- The active keys of every block: 1, 2, 3 and 4. -/
def fourKeys : KeySet := [1, 2, 3, 4].foldl KeySet.insert KeySet.empty

/-- The event of block `b`, a child of `p`, made by key `c`, with the four keys active. -/
def forkEvent (b p : BlockId) (c : PublicKey) : OnAcceptedBlockEvent := ⟨b, p, c, fourKeys, false⟩

/-- Block `n` of fork B, hash `n`. -/
def forkB (n : UInt32) : BlockId := ⟨n, n.toNat⟩

/-- Block `n` of fork C, hash `10 + n`. -/
def forkC (n : UInt32) : BlockId := ⟨n, 10 + n.toNat⟩

/-- The genesis block, fork B of blocks 1 and 2 by key 1, and fork C of blocks 1 to 4 by
key 2. -/
def twoForks : BlockTree :=
  [forkEvent (forkB 1) BlockId.zero 1, forkEvent (forkB 2) (forkB 1) 1,
    forkEvent (forkC 1) BlockId.zero 2, forkEvent (forkC 2) (forkC 1) 2,
    forkEvent (forkC 3) (forkC 2) 2, forkEvent (forkC 4) (forkC 3) 2]

/-- Engines `i` and `j` meet: `i` sends a handshake, `j` answers. Engine `i` holds key `i + 1`. -/
def meet (i j : Nat) : List ClusterStep :=
  [.newPeer i j, .deliver i j (.handshake ⟨⟨BlockId.zero⟩, [i + 1]⟩),
    .deliver j i (.handshakeAns ⟨⟨BlockId.zero⟩, [j + 1]⟩)]

/-- Engines `is` accept block `b`, a child of `p` made by key `c`. -/
def acceptAll (is : List Nat) (b p : BlockId) (c : PublicKey) : List ClusterStep :=
  is.map (.accepted · (forkEvent b p c))

/-- The prevote of key `k` in round `r` for the path `blocks` from the genesis block. -/
def prevoteOf (r : UInt32) (blocks : List BlockId) (k : PublicKey) : NetMsgData :=
  .prevote ⟨⟨r, BlockId.zero, blocks⟩, [k]⟩

/-- The precommit of key `k` in round `r` for block `b`. -/
def precommitOf (r : UInt32) (b : BlockId) (k : PublicKey) : NetMsgData := .precommit ⟨⟨r, b⟩, [k]⟩

/-- Round 0: engines 0, 1 and 2 prevote block B1 and see each other's prevotes, precommit
it at B2, and engine 0 alone gets the two other precommits. Round 1: engines 1, 2 and 3
take fork C, prevote block C3 and see each other's prevotes, precommit it at C4, and engine
3 gets the two other precommits. Every other message is dropped. -/
def twoForksRun : List ClusterStep :=
  meet 0 1 ++ meet 0 2 ++ meet 1 2 ++ meet 1 3 ++ meet 2 3 ++
  acceptAll [0, 1, 2] (forkB 1) BlockId.zero 1 ++
  [.deliver 0 1 (prevoteOf 0 [forkB 1] 1), .deliver 0 2 (prevoteOf 0 [forkB 1] 1),
    .deliver 1 0 (prevoteOf 0 [forkB 1] 2), .deliver 1 2 (prevoteOf 0 [forkB 1] 2),
    .deliver 2 0 (prevoteOf 0 [forkB 1] 3), .deliver 2 1 (prevoteOf 0 [forkB 1] 3)] ++
  acceptAll [0, 1, 2] (forkB 2) (forkB 1) 1 ++
  [.deliver 1 0 (precommitOf 0 (forkB 1) 2), .deliver 2 0 (precommitOf 0 (forkB 1) 3)] ++
  acceptAll [1, 2, 3] (forkC 1) BlockId.zero 2 ++ acceptAll [1, 2, 3] (forkC 2) (forkC 1) 2 ++
  acceptAll [1, 2, 3] (forkC 3) (forkC 2) 2 ++
  [.deliver 1 2 (prevoteOf 1 [forkC 1, forkC 2, forkC 3] 2),
    .deliver 1 3 (prevoteOf 1 [forkC 1, forkC 2, forkC 3] 2),
    .deliver 2 1 (prevoteOf 1 [forkC 1, forkC 2, forkC 3] 3),
    .deliver 2 3 (prevoteOf 1 [forkC 1, forkC 2, forkC 3] 3),
    .deliver 3 1 (prevoteOf 1 [forkC 1, forkC 2, forkC 3] 4),
    .deliver 3 2 (prevoteOf 1 [forkC 1, forkC 2, forkC 3] 4)] ++
  acceptAll [1, 2, 3] (forkC 4) (forkC 3) 2 ++
  [.deliver 1 3 (precommitOf 1 (forkC 3) 2), .deliver 2 3 (precommitOf 1 (forkC 3) 3)]

/-- Four engines, each holding one of the four active keys, none byzantine, fed the blocks
of one global tree parents first: engine 0 publishes block B1 and engine 3 publishes block
C3, and neither block is an ancestor of the other. -/
theorem honest_engines_finalize_two_forks :
    twoForks.wellFormed BlockId.zero fourKeys = true ∧
      Cluster.parentsFirst BlockId.zero [] twoForksRun = true ∧
      ∃ c, ClusterReachable BlockId.zero twoForks c ∧
        c.byzantine = KeySet.empty ∧ c.byzantine.size ≤ (fourKeys.size - 1) / 3 ∧
        (∀ k ∈ fourKeys.keys, (c.engines.filter (k ∈ ·.signatureProviders)).length = 1) ∧
        forkB 1 ∈ c.finalized 0 ∧ forkC 3 ∈ c.finalized 3 ∧
        twoForks.onOneChain (forkB 1) (forkC 3) = false :=
  ⟨by decide, by decide,
    @ClusterReachable.of_run _ _ _ twoForksRun _ _
      (started_reachable BlockId.zero twoForks [1, 2, 3, 4] KeySet.empty) (by decide)⟩

end randpa_finality
