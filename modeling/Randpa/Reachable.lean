-- The states that runs of the engine reach: a configured engine started on a tree, then
-- the messages of its queue, each handled at some time. Every such state is good: its
-- root is the last irreversible block, which only rises, no assertion of the round
-- fails, and what the engine publishes is above its last irreversible block.
import Randpa.Run

namespace randpa_finality

/-- `loop()`: `process_msg` on each message the queue hands out, with the time it is
handled, until `_done` is set. -/
def Randpa.loop (e : Randpa) : List (Nat × RandpaMessage) → Except RandpaError Randpa
  | [] => .ok e
  | (now, m) :: ms =>
    if e.done then .ok e
    else do
      let e ← e.processMsg now m
      e.loop ms

/-- The states a run of the engine reaches. -/
inductive Reachable : Randpa → Prop
  | start {tree : PrefixChainTree} {e0 e : Randpa} :
      e0.Configured → e0.start tree = .ok e → Reachable e
  | step {e e' : Randpa} {now : Nat} {m : RandpaMessage} :
      Reachable e → e.processMsg now m = .ok e' → Reachable e'

theorem Reachable.loop {e e' : Randpa} (h : Reachable e) :
    ∀ {ms : List (Nat × RandpaMessage)}, e.loop ms = .ok e' → Reachable e'
  | [], hl => by cases hl; exact h
  | (now, m) :: ms, hl => by
    unfold Randpa.loop at hl
    split at hl
    · cases hl; exact h
    · obtain ⟨e1, h1, h2⟩ := except_bind_eq_ok.1 hl
      exact (h.step h1).loop h2

/-- The full node `randpa()` builds: one provider of a fresh random key and the public key
`public_key_type{}`, both `0` here, and no provider by key. -/
def fullNode : Randpa := Randpa.configured false [0] [0] KeyMap.empty

/-- The full node, started on the tree of the zero block. -/
theorem reachable_fullNode : Reachable fullNode :=
  @Reachable.start (.single BlockId.zero) _ _ .new rfl

/-- The producer of key 1, with no peers, started on the tree of the zero block. -/
def producerOne : Randpa := Randpa.configured true [1] [1] (KeyMap.empty.emplace 1 1)

/-- The host builds it: `randpa()`, `set_type_block_producer()`, then
`set_signature_providers` with the one provider of key 1. -/
theorem configured_producerOne : producerOne.Configured :=
  @Randpa.Configured.setSignatureProviders _ _ [1] [1] (.setTypeBlockProducer .new) rfl

theorem reachable_producerOne : Reachable producerOne :=
  @Reachable.start (.single BlockId.zero) _ _ configured_producerOne rfl

/-- Block `n` of one chain, with hash `n`; block 0 is the zero block. -/
def chainBlock (n : UInt32) : BlockId := ⟨n, n.toNat⟩

/-- The event of block `b`, a child of `p`, made by producer `c` with the keys `active`
active, while the node is not syncing. -/
def acceptedBlock (b p : BlockId) (c : PublicKey) (active : List PublicKey) : RandpaMessage :=
  .event (.onAcceptedBlock ⟨b, p, c, active.foldl KeySet.insert KeySet.empty, false⟩)

/-- A proof for block `b` in round 0 that key 1 prevoted and precommitted. -/
def proofByOne (b : BlockId) : RandpaMessage :=
  .net ⟨0, .proof ⟨{ bestBlock := b, prevotes := [⟨⟨0, b, []⟩, [1]⟩], precommits := [⟨⟨0, b⟩, [1]⟩] }, [1]⟩, 0⟩

/-- Blocks 1 and 2 of key 1 alone, which the producer of key 1 finalizes up to block 1, then
a request from session 7 for the proof of round 0. -/
def provedRun : List (Nat × RandpaMessage) :=
  [(0, acceptedBlock (chainBlock 1) BlockId.zero 1 [1]),
    (0, acceptedBlock (chainBlock 2) (chainBlock 1) 1 [1]),
    (0, .net ⟨7, .finalityReqProof ⟨⟨0⟩, []⟩, 0⟩)]

/-- The state of `producerOne` after `provedRun`. -/
def provedState : Randpa := (producerOne.loop provedRun).toOption.getD producerOne

/-- The state of `producerOne` after block 1 of its own: round 0 has prevoted block 1 and is
ready to precommit. -/
def readyState : Randpa :=
  (producerOne.loop [(0, acceptedBlock (chainBlock 1) BlockId.zero 1 [1])]).toOption.getD producerOne

theorem reachable_loop_getD {e : Randpa} (h : Reachable e) (ms : List (Nat × RandpaMessage)) :
    Reachable ((e.loop ms).toOption.getD e) := by
  cases hl : e.loop ms with
  | error _ => exact h
  | ok e' => exact h.loop hl

theorem good_start {tree : PrefixChainTree} {e0 e : Randpa} (hc : e0.Configured)
    (h : e0.start tree = .ok e) : Good e := by
  obtain ⟨_, _, _, _, rfl⟩ := hc.start_eq h
  exact ⟨rfl, fun _ h => nomatch h⟩

theorem Reachable.good {e : Randpa} (h : Reachable e) : Good e := by
  induction h with
  | start hc h => exact good_start hc h
  | step _ hs ih => exact ((Randpa.processMsg_good ih _ _).of_ok hs).1

/-! ## The root and the last irreversible block -/

theorem root_eq_lib_and_lib_rises {e : Randpa} (h : Reachable e) :
    e.prefixTree.rootId = e.lib ∧ ∀ now m e', e.processMsg now m = .ok e' →
      e'.lib = e.lib ∨ getBlockNum e.lib < getBlockNum e'.lib :=
  ⟨h.good.libOk, fun now m _ hs => ((Randpa.processMsg_good h.good now m).of_ok hs).2.lib⟩

/-- The producer of key 1 after finalizing block 1, whose last irreversible block has moved. -/
theorem root_eq_lib_and_lib_rises_provedState :
    provedState.lib = chainBlock 1 ∧ provedState.prefixTree.rootId = provedState.lib ∧
      ∀ now m e', provedState.processMsg now m = .ok e' →
        e'.lib = provedState.lib ∨ getBlockNum provedState.lib < getBlockNum e'.lib :=
  ⟨by decide, root_eq_lib_and_lib_rises (reachable_loop_getD reachable_producerOne provedRun)⟩

/-! ## No assertion fails -/

theorem processMsg_never_fails {e : Randpa} (h : Reachable e) :
    (∀ now m, ∃ e', e.processMsg now m = .ok e') ∧
      ∀ r, e.round = some r → r.state = .readyToPrecommit ∨ r.state = .precommit →
        r.bestNode.isSome := by
  refine ⟨fun now m => ?_, fun r hr hs => ?_⟩
  · obtain ⟨e', he, -⟩ := Randpa.processMsg_good h.good now m
    exact ⟨e', he⟩
  · obtain ⟨n, hn, -⟩ := h.good.roundOk r hr hs
    simp [hn]

/-- The producer of key 1 whose round 0 is ready to precommit. -/
theorem processMsg_never_fails_readyState :
    readyState.round.map RandpaRound.state = some .readyToPrecommit ∧
      (∀ now m, ∃ e', readyState.processMsg now m = .ok e') ∧
      ∀ r, readyState.round = some r → r.state = .readyToPrecommit ∨ r.state = .precommit →
        r.bestNode.isSome :=
  ⟨by decide, processMsg_never_fails (reachable_loop_getD reachable_producerOne _)⟩

/-! ## What the engine publishes -/

/-- Proofs for two blocks of two forks are both published, and the second block does not
descend from the first. -/
theorem published_across_forks :
    (fullNode.loop
      [(0, acceptedBlock ⟨1, 1⟩ BlockId.zero 1 [1]), (0, acceptedBlock ⟨1, 2⟩ BlockId.zero 1 [1]),
        (0, acceptedBlock ⟨2, 3⟩ ⟨1, 2⟩ 1 [1]), (0, proofByOne ⟨1, 1⟩), (0, proofByOne ⟨2, 3⟩)]).toOption.map
      (fun e => (published e.outbox, e.prefixTree.find ⟨1, 1⟩, e.prefixTree.find ⟨2, 3⟩,
        e.prefixTree.isAncestor 1 3)) =
    some ([⟨1, 1⟩, ⟨2, 3⟩], some 1, some 3, false) := by
  decide

end randpa_finality
