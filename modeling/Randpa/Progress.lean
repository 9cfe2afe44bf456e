-- Progress of a lone producer. A block producer whose key is the only active key finalizes:
-- the first block of a round starts the round, and the node's own prevote passes the
-- threshold; the round's second block ends the prevote phase, and the node's own precommit
-- passes the threshold, so the first block is published and becomes the last irreversible block.
import Randpa.Roles

namespace randpa_finality

/-! ## A fresh block in the tree -/

theorem lookup_putEntry_self {V : Type} (k : PublicKey) (v : V) :
    ∀ l : List (PublicKey × V), (putEntry true k v l).lookup k = some v
  | [] => by simp [putEntry, List.lookup]
  | (a, w) :: l => by
    rcases lt_trichotomy k a with h | rfl | h
    · simp [putEntry_cons_of_lt true h, List.lookup]
    · simp [putEntry, List.lookup]
    · rw [putEntry_cons_of_gt true h]
      simp only [List.lookup, beq_false_of_ne (Nat.ne_of_gt h)]
      exact lookup_putEntry_self k v l

@[simp]
theorem KeyMap.find?_assign_self {V : Type} (m : KeyMap V) (k : PublicKey) (v : V) :
    (m.assign k v).find? k = some v :=
  lookup_putEntry_self k v m.entries

theorem KeyMap.size_emplace_pos {V : Type} (m : KeyMap V) (k : PublicKey) (v : V) :
    0 < (m.emplace k v).size := by
  rw [size_eq_length_keys, keys_emplace]
  exact List.length_pos_of_mem (mem_insertKey.2 (.inl rfl))

namespace PrefixChainTree

variable {t : PrefixChainTree}

/-- The tree with a new node for block `b` of creator `k`, with keys `a` active, below node
`hp`: what `insert` makes of a block the store does not hold. -/
def pushFresh (t : PrefixChainTree) (hp : Nat) (b : BlockId) (k : PublicKey) (a : KeySet) :
    PrefixChainTree :=
  { t.push ⟨b, some hp, k, a, KeyMap.empty⟩ with
    lastInserted := t.lastInserted.assign k t.nodes.length }

/-- The ids of the blocks in the store. -/
def blockIds (t : PrefixChainTree) : List BlockId := t.nodes.map PrefixNode.blockId

theorem blockIdOf_mem_blockIds {h : Nat} (hh : h < t.nodes.length) : t.blockIdOf h ∈ t.blockIds := by
  simp only [blockIdOf, nodeAt, List.getD_eq_getElem?_getD, List.getElem?_eq_getElem hh,
    Option.getD_some, blockIds]
  exact List.mem_map_of_mem _ (List.getElem_mem hh)

theorem SameShape.blockIds_eq {t' : PrefixChainTree} (hs : t.SameShape t') : t'.blockIds = t.blockIds := by
  refine List.ext_getElem (by simp [blockIds, hs.length_eq]) fun i h1 h2 => ?_
  simp only [blockIds, List.getElem_map]
  have := hs.blockIdOf_eq i
  simp only [blockIdOf, nodeAt, List.getD_eq_getElem?_getD] at this
  simpa [List.getElem?_eq_getElem (by simpa [blockIds] using h1),
    List.getElem?_eq_getElem (by simpa [blockIds] using h2)] using this

theorem insert_fresh {p b : BlockId} {hp : Nat} {k : PublicKey} {a : KeySet}
    (hf : t.find p = some hp) (hb : b ∉ t.blockIds) :
    t.insert ⟨p, [b]⟩ k a = some (t.pushFresh hp b k a) := by
  have hc : t.childWithId hp b = none := by
    refine List.find?_eq_none.2 fun c hc => ?_
    simp only [Bool.and_eq_true, beq_iff_eq, not_and]
    intro _ hcb
    exact hb (hcb ▸ blockIdOf_mem_blockIds (List.mem_range.1 hc))
  simp [insert, hf, insertBlocks, hc, pushFresh]

variable {hp : Nat} {b : BlockId} {k : PublicKey} {a : KeySet}

theorem length_pushFresh : (t.pushFresh hp b k a).nodes.length = t.nodes.length + 1 := by
  simp [pushFresh, push]

theorem nodeAt_pushFresh_self : (t.pushFresh hp b k a).nodeAt t.nodes.length = ⟨b, some hp, k, a, KeyMap.empty⟩ := by
  simp [pushFresh, push, nodeAt, List.getD_eq_getElem?_getD]

theorem grows_pushFresh : t.Grows (t.pushFresh hp b k a) :=
  (t.grows_push _).congr_right rfl

theorem blockIds_pushFresh : (t.pushFresh hp b k a).blockIds = t.blockIds ++ [b] := by
  simp [pushFresh, push, blockIds]

theorem inTree_pushFresh (hin : t.inTree hp) : (t.pushFresh hp b k a).inTree t.nodes.length := by
  have hg : t.Grows (t.pushFresh hp b k a) := grows_pushFresh
  have hr : (t.pushFresh hp b k a).reachesIn t.root t.nodes.length hp = true :=
    hg.reachesIn t.root_lt le_rfl hin
  simp only [inTree, isAncestor, length_pushFresh, reachesIn, Bool.or_eq_true, beq_iff_eq]
  right
  simp only [parentOf, nodeAt_pushFresh_self]
  simpa [pushFresh, push] using hr

theorem find_pushFresh (hin : t.inTree hp) (hb : b ∉ t.blockIds) :
    (t.pushFresh hp b k a).find b = some t.nodes.length := by
  refine List.find?_range_eq_some.2 ⟨?_, by simp [length_pushFresh], fun j hj => ?_⟩
  · simp [blockIdOf, nodeAt_pushFresh_self, inTree_pushFresh hin]
  · have hne : (t.pushFresh hp b k a).blockIdOf j ≠ b := by
      rw [grows_pushFresh.blockIdOf_eq hj]
      exact fun h => hb (h ▸ blockIdOf_mem_blockIds hj)
    simp [hne]

theorem getLastInsertedBlock_pushFresh (hin : t.inTree hp) :
    (t.pushFresh hp b k a).getLastInsertedBlock k = some t.nodes.length := by
  have hl : (t.pushFresh hp b k a).lastInserted.find? k = some t.nodes.length := by simp [pushFresh]
  simp only [getLastInsertedBlock, hl, inTree_pushFresh hin, if_true]

/-! ## The node of a branch, and its prevote count -/

theorem branchUp_append : ∀ (fuel h : Nat) (acc : List BlockId), ∃ l, t.branchUp fuel h acc = l ++ acc
  | 0, _, acc => ⟨[], rfl⟩
  | fuel + 1, h, acc => by
    unfold branchUp
    split
    · exact ⟨[], rfl⟩
    · split
      · rename_i p _
        obtain ⟨l, hl⟩ := branchUp_append fuel p (t.blockIdOf h :: acc)
        exact ⟨l ++ [t.blockIdOf h], by simp [hl]⟩
      · exact ⟨[], rfl⟩

/-- A prevote for the branch of a node below the root lands on that node. -/
theorem confirmationTarget_getBranch_self {id : BlockId} {h p : Nat} (hf : t.find id = some h)
    (hr : h ≠ t.root) (hp : t.parentOf h = some p) :
    t.confirmationTarget (t.getBranch (t.blockIdOf h)) = some h := by
  obtain ⟨n, hn⟩ := Nat.exists_eq_add_of_lt (find_lt t hf)
  have hid := (find_spec hf).1
  obtain ⟨l, hl⟩ := t.branchUp_append (h + n) p [id]
  have hb : t.getBranch (t.blockIdOf h) = ⟨t.rootId, l ++ [id]⟩ := by
    simp only [getBranch, hid, hf, hn, branchUp, if_neg hr, hp, hl]
  rw [hb, confirmationTarget]
  simp [hf]

theorem isAncestor_self {h : Nat} (hh : h < t.nodes.length) : t.isAncestor h h = true := by
  obtain ⟨n, hn⟩ := Nat.exists_eq_add_of_lt hh
  simp [isAncestor, hn, reachesIn]

/-- `confirmation_number()` counts the node's own prevotes. -/
theorem confCount_le_confirmationNumber {h : Nat} (hh : h < t.nodes.length) :
    t.confCount h ≤ t.confirmationNumber h :=
  List.le_sum_of_mem (List.mem_map_of_mem _ (List.mem_filter.2 ⟨List.mem_range.2 hh, isAncestor_self hh⟩))

theorem nodeAt_modifyConf_self {h : Nat} (hh : h < t.nodes.length) (f : KeyMap PrevoteMsg → KeyMap PrevoteMsg) :
    (t.modifyConf h f).nodeAt h = { t.nodeAt h with confirmationData := f (t.nodeAt h).confirmationData } := by
  simp [nodeAt, modifyConf, List.getD_eq_getElem?_getD, List.getElem?_modify, List.getElem?_eq_getElem hh]

/-- At a node where one key is active, a prevote put there passes the prevote threshold. -/
theorem threshold_of_lone {h : Nat} (hh : h < t.nodes.length) (ha : (t.nodeAt h).activeBpKeys.size = 1)
    (k : PublicKey) (c : PrevoteMsg) :
    RandpaRound.isPrevoteThresholdReached (t.modifyConf h (·.emplace k c)) h = true := by
  have hs := t.sameShape_modifyConf h (·.emplace k c)
  have hpos : 0 < (t.modifyConf h (·.emplace k c)).confCount h := by
    simp only [confCount, nodeAt_modifyConf_self hh]
    exact KeyMap.size_emplace_pos _ _ _
  have hle := confCount_le_confirmationNumber (hs.length_eq ▸ hh : h < (t.modifyConf h (·.emplace k c)).nodes.length)
  simp only [RandpaRound.isPrevoteThresholdReached, hs.activeBpKeys_eq, ha, decide_eq_true_eq]
  omega

end PrefixChainTree

/-! ## The round of a lone producer -/

@[simp] theorem published_finality_cons (b : BlockId) (out : List RandpaOutput) :
    published (.finality b :: out) = b :: published out := rfl

namespace RandpaRound

/-- A round made with the one key `k` active at the node of `k`'s last block: its own
prevote lands there and passes the threshold, so the round is ready to precommit with
that node as its best node, and has no precommit yet. -/
theorem new_alone {e : Randpa} {num : UInt32} {k : PublicKey} {h : Nat}
    (hl : e.prefixTree.getLastInsertedBlock k = some h)
    (ht : e.prefixTree.confirmationTarget (e.prefixTree.getBranch (e.prefixTree.blockIdOf h)) = some h)
    (ha : (e.prefixTree.nodeAt h).activeBpKeys.size = 1) :
    ∃ r e', RandpaRound.new num k [k] e = .ok (r, e') ∧ r.num = num ∧ r.state = .readyToPrecommit ∧
      r.bestNode = some h ∧ r.signatureProviders = [k] ∧ r.proof.precommits = [] ∧
      e.prefixTree.SameShape e'.prefixTree ∧ e'.lib = e.lib ∧ published e'.outbox = published e.outbox := by
  have hh := PrefixChainTree.inTree_lt (PrefixChainTree.confirmationTarget_spec ht)
  have hth := e.prefixTree.threshold_of_lone hh ha k
  have ht' : e.prefixTree.confirmationTarget
      ⟨(e.prefixTree.getBranch (e.prefixTree.blockIdOf h)).baseBlock,
        (e.prefixTree.getBranch (e.prefixTree.blockIdOf h)).blocks⟩ = some h := ht
  simp only [RandpaRound.new, prevote, create, setState, hl, prevoteLoop, addPrevote,
    NetworkMsg.publicKeys, PrefixChainTree.addConfirmations_of_target ht', hth, ne_eq,
    reduceCtorEq, not_false_eq_true, decide_True, Bool.and_self, ite_true, except_ok_bind,
    Bool.true_and, decide_eq_true_eq]
  refine ⟨_, _, rfl, rfl, rfl, rfl, rfl, rfl, ?_, by simp, ?_⟩
  · simpa using e.prefixTree.sameShape_modifyConf h _
  · obtain ⟨out, ho, hp⟩ := Randpa.bcast_outbox _ _
    rw [ho, published_append, hp, List.append_nil]

/-- A round ready to precommit, with one key of its own and the one key active at its best
node, ends its prevote phase done: its own precommit passes the threshold, and
`finish_round` publishes the best block above the last irreversible block and makes it the
last irreversible block. -/
theorem endPrevote_alone {r : RandpaRound} {e : Randpa} {k : PublicKey} {h : Nat}
    (hs : r.state = .readyToPrecommit) (hb : r.bestNode = some h) (hk : r.signatureProviders = [k])
    (hp : r.proof.precommits = []) (ha : (e.prefixTree.nodeAt h).activeBpKeys.size = 1)
    (hl : getBlockNum e.lib < getBlockNum (e.prefixTree.blockIdOf h)) :
    ∃ r' e', r.endPrevote e = .ok (r', e') ∧ e'.lib = e.prefixTree.blockIdOf h ∧
      published e'.outbox = published e.outbox ++ [e.prefixTree.blockIdOf h] := by
  have hl' : getBlockNum e.lib < getBlockNum (e.prefixTree.nodeAt h).blockId := hl
  simp only [endPrevote, precommit, setState, hs, hb, hk, hp, precommitLoop, addPrecommit,
    NetworkMsg.publicKeys, isPrecommitThresholdReached, ha, ne_eq, reduceCtorEq,
    not_false_eq_true, not_true_eq_false, ite_true, ite_false, except_ok_bind, List.nil_append,
    List.length_singleton, Randpa.finishRound, finish, getProof, hl', decide_True]
  refine ⟨_, _, rfl, by simp [PrefixChainTree.blockIdOf], ?_⟩
  dsimp only
  obtain ⟨out2, ho2, hp2⟩ := Randpa.bcast_outbox _ _
  obtain ⟨out1, ho1, hp1⟩ := Randpa.onProofGained_outbox e _
  rw [ho2, Randpa.updateLib_outbox, ho1]
  simp [hp1, hp2, PrefixChainTree.blockIdOf]

end RandpaRound

/-! ## The two blocks of a round -/

/-- The first block of a round has a number of 1 or more: block 0's `round_num` wraps. -/
theorem one_le_of_numInRound {b : BlockId} (hi : numInRound b = 0) : ¬ getBlockNum b < 1 := by
  intro h1
  have h2 : (getBlockNum b).toBitVec < 1#32 := h1
  have h0 : getBlockNum b = 0 :=
    UInt32.eq_of_toBitVec_eq (by rw [show (0 : UInt32).toBitVec = 0#32 from rfl]; bv_omega)
  simp only [numInRound, h0] at hi
  exact absurd hi (by decide)

/-- The set of the one key `k`. -/
def KeySet.single (k : PublicKey) : KeySet := KeySet.empty.insert k

theorem KeySet.mem_single (k : PublicKey) : k ∈ KeySet.single k := by
  simp [KeySet.single, KeySet.mem_insert]

namespace Randpa

variable {e : Randpa} {k : PublicKey} {p b : BlockId} {hp : Nat}

/-- The first block of a round, made by a producer whose key `k` is the only active key:
the node starts the round, which its own prevote makes ready to precommit at the block's
node; nothing is published and the last irreversible block stays. -/
theorem firstBlock_alone (now : Nat) (hbp : e.isBlockProducer = true) (hk : k ∈ e.publicKeys)
    (hprov : e.sigProvsByKey.find? k = some k) (hf : e.prefixTree.find p = some hp)
    (hb : b ∉ e.prefixTree.blockIds) (hr : ∀ r, e.round = some r → r.num < roundNum b)
    (hi : numInRound b = 0) (hlag : ¬getBlockNum b - getBlockNum e.lib > maxFinalityLagBlocks) :
    ∃ e1 r, e.processMsg now (.event (.onAcceptedBlock ⟨b, p, k, KeySet.single k, false⟩)) = .ok e1 ∧
      e1.round = some r ∧ r.num = roundNum b ∧ r.state = .readyToPrecommit ∧
      r.bestNode = some e.prefixTree.nodes.length ∧ r.signatureProviders = [k] ∧
      r.proof.precommits = [] ∧ (e.prefixTree.pushFresh hp b k (KeySet.single k)).SameShape e1.prefixTree ∧
      e1.lib = e.lib ∧ published e1.outbox = published e.outbox := by
  have hin := (PrefixChainTree.find_spec hf).2
  have hins := PrefixChainTree.insert_fresh (k := k) (a := KeySet.single k) hf hb
  have hfrozen : decide (getBlockNum b - getBlockNum e.lib > maxFinalityLagBlocks) = false :=
    decide_eq_false hlag
  set t := e.prefixTree.pushFresh hp b k (KeySet.single k) with ht
  set e0 : Randpa := { e with prefixTree := t, isSyncing := false, isFrozen := false } with he0
  -- `remove_round` takes the prevotes off the tree with the block
  have hs : t.SameShape e0.removeRound.prefixTree := t.sameShape_removeConfirmations
  have hfind : t.find b = some e.prefixTree.nodes.length := PrefixChainTree.find_pushFresh hin hb
  have hnode : t.nodeAt e.prefixTree.nodes.length = ⟨b, some hp, k, KeySet.single k, KeyMap.empty⟩ :=
    PrefixChainTree.nodeAt_pushFresh_self
  obtain ⟨r, e1, hnew, hnum, hst, hbest, hprovs, hpre, hsh, hlib, hpub⟩ :=
    @RandpaRound.new_alone e0.removeRound (roundNum b) k e.prefixTree.nodes.length
      (by rw [hs.getLastInsertedBlock_eq]; exact PrefixChainTree.getLastInsertedBlock_pushFresh hin)
      (by
        rw [hs.getBranch_eq, hs.confirmationTarget_eq, hs.blockIdOf_eq]
        exact PrefixChainTree.confirmationTarget_getBranch_self (p := hp) hfind
          (Nat.ne_of_gt e.prefixTree.root_lt) (by simp [PrefixChainTree.parentOf, hnode]))
      (by rw [hs.activeBpKeys_eq, hnode]; rfl)
  have hact : e0.removeRound.isActiveBp b = true := by
    have hbp0 : e0.removeRound.isBlockProducer = true := hbp
    simp only [isActiveBp, hbp0, Bool.not_true, Bool.false_eq_true, if_false, hs.find_eq, hfind,
      hs.activeBpKeys_eq, hnode, List.any_eq_true, decide_eq_true_eq]
    exact ⟨k, hk, KeySet.mem_single k⟩
  have hstart : e0.shouldStartRound b = true := by
    simp only [shouldStartRound, one_le_of_numInRound hi, if_false]
    split
    · rfl
    · rename_i r' hr'
      simpa using hr r' hr'
  have hprov' : e0.removeRound.getActiveSignatureProviders (KeySet.single k) = [k] := by
    show [k].filterMap e.sigProvsByKey.find? = [k]
    simp [hprov]
  refine ⟨{ e1 with round := some r }, r, ?_, rfl, hnum, hst, hbest, hprovs, hpre,
    hs.trans hsh, hlib, hpub⟩
  have hflags : (e0.isSyncing || e0.isFrozen) = false := rfl
  have hend : { e1 with round := some r }.shouldEndPrevote b = false := by
    simp [shouldEndPrevote, hnum, hi, prevoteWidth]
  simp only [processMsg, processEvent, onAcceptedBlock, hins, hfrozen, ← he0, scheduleRound,
    hflags, startRound, hstart, hact, newRound, hprov', hnew, except_ok_bind, hend, ite_true,
    Bool.false_eq_true, ite_false]

theorem callRound_of_ok {e' : Randpa} {r r' : RandpaRound}
    {f : RandpaRound → Randpa → Except RandpaError (RandpaRound × Randpa)} (hround : e.round = some r)
    (h : f r e = .ok (r', e')) : e.callRound f = .ok { e' with round := some r' } := by
  simp only [callRound, hround, h, except_ok_bind]

/-- The block at the end of the prevote phase of the current round, new to the node and
within the finality lag, with its parent in the tree: the node puts it into the tree, is
neither syncing nor frozen, and ends the round's prevote phase. -/
theorem onAcceptedBlock_endPrevote {r : RandpaRound} {c : PublicKey} {a : KeySet} (now : Nat)
    (hround : e.round = some r) (hf : e.prefixTree.find p = some hp) (hb : b ∉ e.prefixTree.blockIds)
    (hnum : roundNum b = r.num) (hi : numInRound b = prevoteWidth)
    (hlag : ¬getBlockNum b - getBlockNum e.lib > maxFinalityLagBlocks) :
    e.processMsg now (.event (.onAcceptedBlock ⟨b, p, c, a, false⟩)) =
      ({ e with prefixTree := e.prefixTree.pushFresh hp b c a, isSyncing := false, isFrozen := false } :
        Randpa).callRound RandpaRound.endPrevote := by
  have hfrozen : decide (getBlockNum b - getBlockNum e.lib > maxFinalityLagBlocks) = false :=
    decide_eq_false hlag
  simp [processMsg, processEvent, onAcceptedBlock, PrefixChainTree.insert_fresh hf hb, hfrozen,
    scheduleRound, startRound, shouldStartRound, shouldEndPrevote, hround, hnum, hi, except_ok_bind]

/-- The second block of a round, on a node whose round is ready to precommit with one key of
its own, at a best node where one key is active: the round ends its prevote phase, the
node's own precommit passes the threshold, and the best node's block is published and
becomes the last irreversible block. -/
theorem secondBlock_alone (now : Nat) {c : PublicKey} {a : KeySet} {r : RandpaRound} {h : Nat}
    (hround : e.round = some r) (hs : r.state = .readyToPrecommit) (hbest : r.bestNode = some h)
    (hk : r.signatureProviders = [k]) (hpre : r.proof.precommits = [])
    (hf : e.prefixTree.find p = some hp) (hb : b ∉ e.prefixTree.blockIds) (hnum : r.num = roundNum b)
    (hi : numInRound b = prevoteWidth) (hlag : ¬getBlockNum b - getBlockNum e.lib > maxFinalityLagBlocks)
    (hh : h < e.prefixTree.nodes.length) (ha : (e.prefixTree.nodeAt h).activeBpKeys.size = 1)
    (hl : getBlockNum e.lib < getBlockNum (e.prefixTree.blockIdOf h)) :
    ∃ e2, e.processMsg now (.event (.onAcceptedBlock ⟨b, p, c, a, false⟩)) = .ok e2 ∧
      e2.lib = e.prefixTree.blockIdOf h ∧
      published e2.outbox = published e.outbox ++ [e.prefixTree.blockIdOf h] := by
  have hg : e.prefixTree.Grows (e.prefixTree.pushFresh hp b c a) := PrefixChainTree.grows_pushFresh
  obtain ⟨r', e', hend, hlib, hpub⟩ := @RandpaRound.endPrevote_alone r
    { e with prefixTree := e.prefixTree.pushFresh hp b c a, isSyncing := false, isFrozen := false } k h
    hs hbest hk hpre (by rw [hg.activeBpKeys_eq hh]; exact ha) (by rw [hg.blockIdOf_eq hh]; exact hl)
  refine ⟨{ e' with round := some r' }, ?_, ?_, ?_⟩
  · rw [onAcceptedBlock_endPrevote now hround hf hb hnum.symm hi hlag]
    exact callRound_of_ok hround hend
  · rw [← hg.blockIdOf_eq hh]; exact hlib
  · rw [← hg.blockIdOf_eq hh]; exact hpub

end Randpa

/-! ## A lone producer finalizes -/

/-- A block producer whose key `k` is the only active key finalizes each round by itself.
From any state in which the node holds `k`, with `k` as its provider, take block `b1`, the
first block of a round later than the node's current round, made by `k` on a block of the
tree, and then `b2`, the round's second block, on `b1`, both new to the node and within the
finality lag, and `b1` above the last irreversible block. The node handles both without
error; after them it has published `b1`, and nothing else, and `b1` is the last irreversible
block. -/
theorem lone_producer_finalizes {e : Randpa} {k c : PublicKey} {a : KeySet} {p b1 b2 : BlockId}
    (now now' : Nat) (hbp : e.isBlockProducer = true) (hk : k ∈ e.publicKeys)
    (hprov : e.sigProvsByKey.find? k = some k) (hp : (e.prefixTree.find p).isSome)
    (hb1 : b1 ∉ e.prefixTree.blockIds) (hb2 : b2 ∉ e.prefixTree.blockIds) (h12 : b2 ≠ b1)
    (hr : ∀ r, e.round = some r → r.num < roundNum b1) (hi1 : numInRound b1 = 0)
    (hi2 : numInRound b2 = prevoteWidth) (hr2 : roundNum b2 = roundNum b1)
    (hlag1 : ¬getBlockNum b1 - getBlockNum e.lib > maxFinalityLagBlocks)
    (hlag2 : ¬getBlockNum b2 - getBlockNum e.lib > maxFinalityLagBlocks)
    (hl : getBlockNum e.lib < getBlockNum b1) :
    ∃ e1 e2, e.processMsg now (.event (.onAcceptedBlock ⟨b1, p, k, KeySet.single k, false⟩)) = .ok e1 ∧
      e1.processMsg now' (.event (.onAcceptedBlock ⟨b2, b1, c, a, false⟩)) = .ok e2 ∧
      published e2.outbox = published e.outbox ++ [b1] ∧ e2.lib = b1 := by
  obtain ⟨hp', hf⟩ := Option.isSome_iff_exists.1 hp
  have hin := (PrefixChainTree.find_spec hf).2
  obtain ⟨e1, r, h1, hround, hnum, hst, hbest, hprovs, hpre, hsh, hlib, hpub⟩ :=
    Randpa.firstBlock_alone now hbp hk hprov hf hb1 hr hi1 hlag1
  -- the node of `b1`, the last of the store, in the tree after the first block
  have hnode := hsh.blockIdOf_eq e.prefixTree.nodes.length
  have hkeys := hsh.activeBpKeys_eq e.prefixTree.nodes.length
  simp only [PrefixChainTree.blockIdOf, PrefixChainTree.nodeAt_pushFresh_self] at hnode hkeys
  have hf1 : e1.prefixTree.find b1 = some e.prefixTree.nodes.length := by
    rw [hsh.find_eq]; exact PrefixChainTree.find_pushFresh hin hb1
  have hb2' : b2 ∉ e1.prefixTree.blockIds := by
    rw [hsh.blockIds_eq, PrefixChainTree.blockIds_pushFresh]
    simpa [h12] using hb2
  have hh : e.prefixTree.nodes.length < e1.prefixTree.nodes.length := by
    rw [hsh.length_eq, PrefixChainTree.length_pushFresh]; omega
  obtain ⟨e2, h2, hlib2, hpub2⟩ := Randpa.secondBlock_alone (c := c) (a := a) now' hround hst hbest
    hprovs hpre hf1 hb2' (hnum.trans hr2.symm) hi2 (hlib ▸ hlag2) hh (by rw [hkeys]; rfl)
    (by rw [PrefixChainTree.blockIdOf, hnode, hlib]; exact hl)
  refine ⟨e1, e2, h1, h2, ?_, ?_⟩
  · rw [hpub2, hpub, PrefixChainTree.blockIdOf, hnode]
  · rw [hlib2, PrefixChainTree.blockIdOf, hnode]

/-- The producer of key 1 finalizes block 1 from the blocks 1 and 2 it makes. -/
theorem lone_producer_finalizes_producerOne :
    ∃ e1 e2, producerOne.processMsg 0
        (.event (.onAcceptedBlock ⟨chainBlock 1, BlockId.zero, 1, KeySet.single 1, false⟩)) = .ok e1 ∧
      e1.processMsg 0 (.event (.onAcceptedBlock ⟨chainBlock 2, chainBlock 1, 1, KeySet.single 1, false⟩)) =
        .ok e2 ∧
      published e2.outbox = published producerOne.outbox ++ [chainBlock 1] ∧ e2.lib = chainBlock 1 :=
  lone_producer_finalizes 0 0 rfl (by decide) (by decide) (by decide) (by decide) (by decide)
    (by decide) nofun (by decide) (by decide) (by decide) (by decide) (by decide) (by decide)

end randpa_finality
