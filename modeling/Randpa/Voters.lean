-- The prevotes in the tree. From a start on a tree with no prevote, each key's prevote is
-- held by one node at most, only keys the current round marked have one, and no node has
-- one while there is no round; so `confirmation_number()` counts distinct voters.
import Randpa.TreeInvariants
import Randpa.Quorum

namespace randpa_finality

namespace PrefixChainTree

variable (t : PrefixChainTree)

/-- The keys whose prevotes node `h` and the nodes below it hold, in the order of the
store. -/
def votersBelow (h : Nat) : List PublicKey :=
  ((List.range t.nodes.length).filter (t.isAncestor h)).flatMap t.voters

/-- `confirmation_number()` is the number of prevotes held at and below the node. -/
theorem confirmationNumber_eq_length (h : Nat) :
    t.confirmationNumber h = (t.votersBelow h).length := by
  simp only [confirmationNumber, votersBelow, List.length_flatMap]
  congr 1
  exact List.map_congr_left fun n _ => KeyMap.size_eq_length_keys _

theorem voters_single (id : BlockId) (h : Nat) : (single id).voters h = [] := by
  cases h <;> rfl

end PrefixChainTree

/-- With each prevote held once, the keys at and below a node are distinct. -/
theorem VotesOk.nodup_votersBelow {P : KeySet} {t : PrefixChainTree} (hv : VotesOk P t) (h : Nat) :
    (t.votersBelow h).Nodup := by
  refine List.nodup_flatMap.2 ⟨fun n _ => (t.nodeAt n).confirmationData.sorted.nodup, ?_⟩
  exact ((List.nodup_range _).filter _).pairwise_of_forall_ne fun a _ b _ hab k ha hb =>
    hab (hv.unique k a b ha hb)

/-! ## Each prevote held once -/

/-- From a start on a tree that holds no prevote: each key's prevote is held by one node of
the store at most, only a key that the current round marked has one, no node holds one
while there is no round, and `confirmation_number()` of a node counts the distinct keys
whose prevotes lie at or below it. -/
theorem prevotes_held_once {e : Randpa}
    (h : ReachableFrom (fun t => ∀ n, t.voters n = []) (fun _ => True) e) :
    (∀ k n n', k ∈ e.prefixTree.voters n → k ∈ e.prefixTree.voters n' → n = n') ∧
    (∀ k n, k ∈ e.prefixTree.voters n → ∃ r, e.round = some r ∧ k ∈ r.prevotedKeys) ∧
    (e.round = none → ∀ n, e.prefixTree.voters n = []) ∧
    (∀ n, (e.prefixTree.votersBelow n).Nodup ∧
      e.prefixTree.confirmationNumber n = (e.prefixTree.votersBelow n).length) := by
  have hv : VotesHeld e := h.votesHeld fun _ ht => ht
  unfold VotesHeld at hv
  refine ⟨hv.unique, fun k n hk => ?_, fun hr n => ?_,
    fun n => ⟨hv.nodup_votersBelow n, e.prefixTree.confirmationNumber_eq_length n⟩⟩
  · have hk := hv.voted k n hk
    cases hr : e.round with
    | none => simp [hr] at hk
    | some r => exact ⟨r, rfl, by simpa [hr] using hk⟩
  · refine List.eq_nil_iff_forall_not_mem.2 fun k hk => ?_
    simpa [hr] using hv.voted k n hk

/-- The producer of key 1 after the run of `quorumRun`, where keys 1 and 2 prevoted: the
keys below block 1 are distinct, and counted. -/
theorem prevotes_held_once_quorumState :
    (quorumState.prefixTree.votersBelow 1).Nodup ∧
      quorumState.prefixTree.confirmationNumber 1 = (quorumState.prefixTree.votersBelow 1).length :=
  have hs : ReachableFrom (fun t => ∀ n, t.voters n = []) (fun _ => True) producerOne :=
    @ReachableFrom.start _ _ (.single BlockId.zero) _ _ (PrefixChainTree.voters_single _)
      configured_producerOne rfl
  (prevotes_held_once (hs.loop_getD fun _ _ => trivial)).2.2.2 1

/-! ## A start on a tree with a prevote -/

/-- The tree of the zero block, whose root holds a prevote of key 1. -/
def votedTree : PrefixChainTree :=
  (PrefixChainTree.single BlockId.zero).modifyConf 0 (·.emplace 1 ⟨⟨0, BlockId.zero, []⟩, [1]⟩)

/-- A full node started on `votedTree`. -/
def votedStart : Randpa :=
  { fullNode with
    prefixTree := votedTree, lib := votedTree.rootId }

/-- `start` takes the tree as it is: with no round, its root holds key 1's prevote. -/
theorem started_with_prevote :
    Reachable votedStart ∧ votedStart.round = none ∧ votedStart.prefixTree.voters 0 = [1] :=
  ⟨@Reachable.start votedTree _ _ .new rfl, rfl, by decide⟩

end randpa_finality
