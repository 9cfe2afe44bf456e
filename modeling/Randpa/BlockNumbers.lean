-- Block numbers above the last irreversible block. From a start on a tree numbered
-- upwards from block 1, with blocks numbered above their parents, every node of the tree
-- but the root lies above the last irreversible block, and no block-number subtraction wraps.
import Randpa.TreeInvariants

namespace randpa_finality

namespace PrefixChainTree

/-- A tree whose root is numbered 1 or more and whose nodes are numbered above their
parents. -/
def NumberedTree (t : PrefixChainTree) : Prop := 1 ≤ getBlockNum t.rootId ∧ t.EdgesRise

theorem edgesRise_single (id : BlockId) : (single id).EdgesRise := by
  intro h p hp
  cases h <;> cases hp

/-- Along rising edges, a node below `a` has a larger number than `a`. -/
theorem EdgesRise.lt_of_reachesIn {t : PrefixChainTree} (he : t.EdgesRise) {a : Nat} :
    ∀ {fuel h : Nat}, t.reachesIn a fuel h = true → h ≠ a →
      getBlockNum (t.blockIdOf a) < getBlockNum (t.blockIdOf h)
  | fuel + 1, h, hr, hne => by
    simp only [reachesIn, Bool.or_eq_true, beq_iff_eq, hne, false_or] at hr
    split at hr
    · rename_i p hp
      have hlt := (he h p hp).2
      by_cases hpa : p = a
      · exact hpa ▸ hlt
      · exact Nat.lt_trans (he.lt_of_reachesIn hr hpa) hlt
    · cases hr

theorem EdgesRise.rootId_lt {t : PrefixChainTree} (he : t.EdgesRise) {n : Nat}
    (hn : t.inTree n = true) (hne : n ≠ t.root) : getBlockNum t.rootId < getBlockNum (t.blockIdOf n) :=
  he.lt_of_reachesIn hn hne

theorem EdgesRise.rootId_le {t : PrefixChainTree} (he : t.EdgesRise) {n : Nat}
    (hn : t.inTree n = true) : (getBlockNum t.rootId).toNat ≤ (getBlockNum (t.blockIdOf n)).toNat := by
  by_cases hr : n = t.root
  · rw [hr]; rfl
  · exact Nat.le_of_lt (he.rootId_lt hn hr)

/-- `get_head()` is a node of the tree: the fold starts at the root and moves only to nodes
of the tree. -/
theorem inTree_getHead (t : PrefixChainTree) : t.inTree t.getHead = true := by
  suffices ∀ (l : List Nat) (b : Nat), t.inTree b = true → t.inTree (l.foldl
      (fun best h => if t.inTree h && t.depth best < t.depth h then h else best) b) = true from
    this _ _ t.inTree_root
  intro l
  induction l with
  | nil => exact fun _ hb => hb
  | cons a l ih =>
    intro b hb
    refine ih _ ?_
    dsimp only
    split
    · rename_i hc
      exact (Bool.and_eq_true _ _ ▸ hc).1
    · exact hb

end PrefixChainTree

/-- A start on a tree whose root is numbered 1 or more: the last irreversible block stays
so, as it only rises. -/
theorem ReachableFrom.one_le_lib {P : PrefixChainTree → Prop} {M : RandpaMessage → Prop} {e : Randpa}
    (hP : ∀ t, P t → 1 ≤ getBlockNum t.rootId) (h : ReachableFrom P M e) : 1 ≤ getBlockNum e.lib := by
  induction h with
  | start ht hc hs => obtain ⟨_, _, _, _, rfl⟩ := hc.start_eq hs; exact hP _ ht
  | step hr _ hs ih =>
    exact Nat.le_trans ih ((Randpa.processMsg_good hr.reachable.good _ _).of_ok hs).2.lib_le

/-! ## Above the last irreversible block -/

/-- From a start on a numbered tree, with every accepted block numbered above its parent:
the last irreversible block is numbered 1 or more, every other node of the tree lies above
it, and so neither the freeze test's `get_block_num(block) - get_block_num(_lib)` of a
block that is inserted nor `get_block_num(id) - 1` of `round_num` for that block or for the
head wraps around. -/
theorem blocks_above_lib {e : Randpa}
    (h : ReachableFrom PrefixChainTree.NumberedTree RandpaMessage.Numbered e) :
    1 ≤ getBlockNum e.lib ∧
    (∀ n, e.prefixTree.inTree n = true → n ≠ e.prefixTree.root →
      getBlockNum e.lib < getBlockNum (e.prefixTree.blockIdOf n)) ∧
    (∀ (ev : OnAcceptedBlockEvent) (t : PrefixChainTree),
      getBlockNum ev.prevBlockId < getBlockNum ev.blockId →
      e.prefixTree.insert ⟨ev.prevBlockId, [ev.blockId]⟩ ev.creatorKey ev.activeBpKeys = some t →
      (getBlockNum ev.blockId - getBlockNum e.lib).toNat =
          (getBlockNum ev.blockId).toNat - (getBlockNum e.lib).toNat ∧
        (getBlockNum ev.blockId - 1).toNat = (getBlockNum ev.blockId).toNat - 1) ∧
    (getBlockNum (e.prefixTree.blockIdOf e.prefixTree.getHead) - 1).toNat =
      (getBlockNum (e.prefixTree.blockIdOf e.prefixTree.getHead)).toNat - 1 := by
  have hlib : 1 ≤ getBlockNum e.lib := h.one_le_lib fun _ ht => ht.1
  have he : e.prefixTree.EdgesRise := h.edgesRise (fun _ ht => ht.2) fun _ hm => hm
  have hroot : e.prefixTree.rootId = e.lib := h.reachable.good.libOk
  have above : ∀ n, e.prefixTree.inTree n = true →
      (getBlockNum e.lib).toNat ≤ (getBlockNum (e.prefixTree.blockIdOf n)).toNat :=
    fun n hn => hroot ▸ he.rootId_le hn
  refine ⟨hlib, fun n hn hne => hroot ▸ he.rootId_lt hn hne, fun ev t hev hi => ?_,
    UInt32.toNat_sub_of_le _ _ (Nat.le_trans hlib (above _ e.prefixTree.inTree_getHead))⟩
  simp only [PrefixChainTree.insert, Option.map_eq_some'] at hi
  obtain ⟨p, hp, -⟩ := hi
  obtain ⟨hpid, hpin⟩ := PrefixChainTree.find_spec hp
  have hlt : (getBlockNum e.lib).toNat < (getBlockNum ev.blockId).toNat :=
    Nat.lt_of_le_of_lt (hpid ▸ above p hpin) hev
  exact ⟨UInt32.toNat_sub_of_le _ _ (Nat.le_of_lt hlt),
    UInt32.toNat_sub_of_le _ _ (Nat.le_trans hlib (Nat.le_of_lt hlt))⟩

/-- A full node started on block 1. -/
def numberedStart : Randpa :=
  { fullNode with
    prefixTree := .single (chainBlock 1), lib := (PrefixChainTree.single (chainBlock 1)).rootId }

/-- The node after blocks 2 and 3. -/
def numberedRun : Randpa :=
  (numberedStart.loop [(0, acceptedBlock (chainBlock 2) (chainBlock 1) 2 [1, 2]),
    (0, acceptedBlock (chainBlock 3) (chainBlock 2) 2 [1, 2])]).toOption.getD numberedStart

theorem blocks_above_lib_numberedRun :
    1 ≤ getBlockNum numberedRun.lib ∧
      (getBlockNum (numberedRun.prefixTree.blockIdOf numberedRun.prefixTree.getHead) - 1).toNat =
        (getBlockNum (numberedRun.prefixTree.blockIdOf numberedRun.prefixTree.getHead)).toNat - 1 :=
  have hs : ReachableFrom PrefixChainTree.NumberedTree RandpaMessage.Numbered numberedStart :=
    @ReachableFrom.start _ _ (.single (chainBlock 1)) _ _
      ⟨by decide, PrefixChainTree.edgesRise_single _⟩ .new rfl
  have hr : ReachableFrom PrefixChainTree.NumberedTree RandpaMessage.Numbered numberedRun :=
    hs.loop_getD (by decide)
  ⟨(blocks_above_lib hr).1, (blocks_above_lib hr).2.2.2⟩

/-! ## A tree numbered out of order -/

/-- Block 1 with block 5 below it and block 3 below that. -/
def unorderedTree : PrefixChainTree :=
  ((PrefixChainTree.single (chainBlock 1)).insert ⟨chainBlock 1, [chainBlock 5, chainBlock 3]⟩ 0
    KeySet.empty).getD (.single (chainBlock 1))

/-- A full node started on `unorderedTree`. -/
def unorderedStart : Randpa :=
  { fullNode with
    prefixTree := unorderedTree, lib := unorderedTree.rootId }

/-- The start fixes only the root's number: once block 5 is irreversible, block 3 (node 2)
is a node of the tree below the last irreversible block, though no block was accepted. -/
theorem unordered_tree_below_lib :
    1 ≤ getBlockNum unorderedTree.rootId ∧ ∃ e, Reachable e ∧
      (e.prefixTree.inTree 2, e.prefixTree.root, getBlockNum (e.prefixTree.blockIdOf 2),
        getBlockNum e.lib) = (true, 1, 3, 5) := by
  refine ⟨by decide, ?_⟩
  have hrun : (unorderedStart.processMsg 0 (.event (.onIrreversible (chainBlock 5)))).toOption.map
      (fun e => (e.prefixTree.inTree 2, e.prefixTree.root, getBlockNum (e.prefixTree.blockIdOf 2),
        getBlockNum e.lib)) = some (true, 1, 3, 5) := by decide
  cases hm : unorderedStart.processMsg 0 (.event (.onIrreversible (chainBlock 5))) with
  | error => rw [hm] at hrun; cases hrun
  | ok e =>
    rw [hm] at hrun
    exact ⟨e, (@Reachable.start unorderedTree _ _ .new rfl).step hm,
      Option.some.inj hrun⟩

end randpa_finality
