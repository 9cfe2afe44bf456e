-- The supermajority test `count > 2 * n / 3` of the round and of `validate_proof`, and the
-- prevote quorum behind a round's best node: the threshold counts the prevotes at the best
-- node and below it, while a precommit needs its key's prevote at the best node itself.
import Randpa.Reachable

namespace randpa_finality

/-! ## The supermajority test -/

/-- More than two thirds of `n` keys, with the integer division of the C++ code. -/
def supermajority (count n : Nat) : Bool := count > 2 * n / 3

/-- With six keys, four prevotes do not cross the threshold and five do. -/
example : supermajority 4 6 = false ∧ supermajority 5 6 = true := by decide

theorem isPrevoteThresholdReached_eq (t : PrefixChainTree) (h : Nat) :
    RandpaRound.isPrevoteThresholdReached t h =
      supermajority (t.confirmationNumber h) (t.nodeAt h).activeBpKeys.size := rfl

theorem isPrecommitThresholdReached_eq {r : RandpaRound} {h : Nat} (hb : r.bestNode = some h)
    (t : PrefixChainTree) :
    r.isPrecommitThresholdReached t =
      .ok (supermajority r.proof.precommits.length (t.nodeAt h).activeBpKeys.size) := by
  simp [RandpaRound.isPrecommitThresholdReached, hb, supermajority]

/-- The test of `validate_proof`, written `n * 2 / 3`, is the same test. -/
theorem supermajority_eq_mul (count n : Nat) : supermajority count n = decide (count > n * 2 / 3) := by
  rw [Nat.mul_comm]; rfl

/-- For `n ≥ 1` active keys and `f = (n - 1) / 3`, the test is a quorum test: two sets of
active keys that pass it share more than `f` keys, and the keys left when at most `f` of
them are set aside still pass. -/
theorem supermajority_quorums {κ : Type} [DecidableEq κ] (active : Finset κ)
    (hn : 1 ≤ active.card) :
    (∀ A B, A ⊆ active → B ⊆ active → supermajority A.card active.card = true →
        supermajority B.card active.card = true → (A ∩ B).card > (active.card - 1) / 3) ∧
    (∀ F, F ⊆ active → F.card ≤ (active.card - 1) / 3 →
        supermajority (active \ F).card active.card = true) := by
  simp only [supermajority, decide_eq_true_eq]
  refine ⟨fun A B hA hB hAq hBq => ?_, fun F hF hf => ?_⟩
  · have hunion : (A ∪ B).card ≤ active.card := Finset.card_le_card (Finset.union_subset hA hB)
    have hinter := Finset.card_union_add_card_inter A B
    omega
  · rw [Finset.card_sdiff hF]
    omega

/-- Six keys, one of them set aside: the other five pass. -/
theorem six_keys_one_aside :
    (Finset.range 6 \ {0}).card = 5 ∧ supermajority (Finset.range 6 \ {0}).card 6 = true :=
  ⟨by decide, (supermajority_quorums (Finset.range 6) (by decide)).2 {0} (by decide) (by decide)⟩

/-! ## A run where the quorum lies below the best node -/

/-- Block `n` on top of block `n - 1`, made by producer `c`, with keys 1 and 2 active. -/
def acceptedOneTwo (n : UInt32) (c : PublicKey) : RandpaMessage :=
  acceptedBlock (chainBlock n) (chainBlock (n - 1)) c [1, 2]

/-- Blocks 1 and 2 by key 2, block 3 by key 1, which starts round 1 and prevotes for
block 3; then key 2 prevotes in round 1 for the path to block 2. -/
def quorumRun : List (Nat × RandpaMessage) :=
  [(0, acceptedOneTwo 1 2), (0, acceptedOneTwo 2 2), (0, acceptedOneTwo 3 1),
    (0, .net ⟨0, .prevote ⟨⟨1, BlockId.zero, [chainBlock 1, chainBlock 2]⟩, [2]⟩, 0⟩)]

/-- The state of `producerOne` after `quorumRun`. -/
def quorumState : Randpa := (producerOne.loop quorumRun).toOption.getD producerOne

/-- After the run the round is past the threshold at block 2 (node 2), whose prevotes are
key 2's at it and key 1's below it; only key 2's prevote is at node 2 itself, one key,
which is not more than two thirds of its two active keys. -/
theorem best_node_holds_one_prevote :
    Reachable quorumState ∧ quorumState.round.map RandpaRound.state = some .readyToPrecommit ∧
      quorumState.round.bind RandpaRound.bestNode = some 2 ∧
      ((quorumState.prefixTree.nodeAt 2).activeBpKeys.keys.filter
        (quorumState.prefixTree.nodeAt 2).hasConfirmation).length = 1 ∧
      2 * (quorumState.prefixTree.nodeAt 2).activeBpKeys.size / 3 = 1 :=
  ⟨reachable_loop_getD reachable_producerOne quorumRun, by decide⟩

/-- The run goes on: block 4 ends the prevote phase, the node precommits block 2 with key 1,
and key 2's precommit makes the round done. The proof it gains holds key 1's precommit but
not key 1's prevote, and `validate_proof` over the tree of that moment rejects it. -/
theorem done_proof_rejected :
    ((quorumState.loop [(0, acceptedOneTwo 4 2)]).toOption.bind fun e =>
      (e.loop [(0, .net ⟨0, .precommit ⟨⟨1, chainBlock 2⟩, [2]⟩, 0⟩)]).toOption.map fun e' =>
        (e'.round.map RandpaRound.state, e'.round.map (e.validateProof ·.proof),
          published e'.outbox)) =
    some (some .done, some false, [chainBlock 2]) := by
  decide

end randpa_finality
