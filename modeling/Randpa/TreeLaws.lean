-- The laws of the prefix tree that the engine's proofs rest on: a change of the
-- prevotes leaves every walk of the tree alone, `find` gives a node of the tree
-- with that id, and a prevote for a branch from the root always lands.
import Mathlib.Algebra.Order.BigOperators.Group.List
import Randpa.PrefixTree

namespace randpa_finality

namespace PrefixNode

@[simp] theorem erase_blockId (n : PrefixNode) : n.erase.blockId = n.blockId := rfl
@[simp] theorem erase_parent (n : PrefixNode) : n.erase.parent = n.parent := rfl
@[simp] theorem erase_activeBpKeys (n : PrefixNode) : n.erase.activeBpKeys = n.activeBpKeys := rfl

end PrefixNode

namespace PrefixChainTree

/-! ## Trees of the same shape -/

/-- Two trees whose nodes differ at most in the prevotes they hold. -/
structure SameShape (t t' : PrefixChainTree) : Prop where
  erase_nodeAt : ∀ h, (t'.nodeAt h).erase = (t.nodeAt h).erase
  length_eq : t'.nodes.length = t.nodes.length
  root_eq : t'.root = t.root
  lastInserted_eq : t'.lastInserted = t.lastInserted

namespace SameShape

variable {t t' t'' : PrefixChainTree}

theorem refl (t : PrefixChainTree) : SameShape t t := ⟨fun _ => rfl, rfl, rfl, rfl⟩

theorem trans (h1 : SameShape t t') (h2 : SameShape t' t'') : SameShape t t'' :=
  ⟨fun h => (h2.1 h).trans (h1.1 h), h2.2.trans h1.2, h2.3.trans h1.3, h2.4.trans h1.4⟩

theorem parentOf_eq (hs : SameShape t t') (h : Nat) : t'.parentOf h = t.parentOf h := by
  simpa using congrArg PrefixNode.parent (hs.erase_nodeAt h)

theorem blockIdOf_eq (hs : SameShape t t') (h : Nat) : t'.blockIdOf h = t.blockIdOf h := by
  simpa using congrArg PrefixNode.blockId (hs.erase_nodeAt h)

theorem activeBpKeys_eq (hs : SameShape t t') (h : Nat) :
    (t'.nodeAt h).activeBpKeys = (t.nodeAt h).activeBpKeys := by
  simpa using congrArg PrefixNode.activeBpKeys (hs.erase_nodeAt h)

theorem reachesIn_eq (hs : SameShape t t') (a : Nat) :
    ∀ fuel h, t'.reachesIn a fuel h = t.reachesIn a fuel h
  | 0, _ => rfl
  | fuel + 1, h => by
    simp only [reachesIn, hs.parentOf_eq]
    split <;> simp only [hs.reachesIn_eq a fuel]

theorem isAncestor_eq (hs : SameShape t t') (a h : Nat) : t'.isAncestor a h = t.isAncestor a h := by
  simp only [isAncestor, hs.length_eq, hs.reachesIn_eq]

theorem inTree_eq (hs : SameShape t t') (h : Nat) : t'.inTree h = t.inTree h := by
  simp only [inTree, hs.root_eq, hs.isAncestor_eq]

theorem find_eq (hs : SameShape t t') (id : BlockId) : t'.find id = t.find id := by
  simp only [find, hs.length_eq, hs.blockIdOf_eq, hs.inTree_eq]

theorem rootId_eq (hs : SameShape t t') : t'.rootId = t.rootId := by
  simp only [rootId, hs.root_eq, hs.blockIdOf_eq]

theorem confirmationTarget_eq (hs : SameShape t t') (chain : ChainType) :
    t'.confirmationTarget chain = t.confirmationTarget chain := by
  simp only [confirmationTarget, hs.find_eq]

theorem getLastInsertedBlock_eq (hs : SameShape t t') (k : PublicKey) :
    t'.getLastInsertedBlock k = t.getLastInsertedBlock k := by
  simp only [getLastInsertedBlock, hs.lastInserted_eq, hs.inTree_eq]

theorem branchUp_eq (hs : SameShape t t') :
    ∀ fuel h acc, t'.branchUp fuel h acc = t.branchUp fuel h acc
  | 0, _, _ => rfl
  | fuel + 1, h, acc => by
    simp only [branchUp, hs.root_eq, hs.parentOf_eq, hs.blockIdOf_eq]
    split <;> try split
    all_goals simp only [hs.branchUp_eq fuel]

theorem getBranch_eq (hs : SameShape t t') (id : BlockId) : t'.getBranch id = t.getBranch id := by
  simp only [getBranch, hs.rootId_eq, hs.find_eq, hs.length_eq, hs.branchUp_eq]

end SameShape

/-! ## Changes of the prevotes -/

theorem erase_nodeAt_modifyConf (t : PrefixChainTree) (h : Nat)
    (f : KeyMap PrevoteMsg → KeyMap PrevoteMsg) (i : Nat) :
    ((t.modifyConf h f).nodeAt i).erase = (t.nodeAt i).erase := by
  simp only [nodeAt, modifyConf, List.getD_eq_getElem?_getD, List.getElem?_modify]
  cases t.nodes[i]? <;> simp only [Option.map_eq_map, Option.map_none', Option.map_some',
    Option.getD_none, Option.getD_some]
  split <;> rfl

theorem sameShape_modifyConf (t : PrefixChainTree) (h : Nat)
    (f : KeyMap PrevoteMsg → KeyMap PrevoteMsg) : SameShape t (t.modifyConf h f) :=
  ⟨t.erase_nodeAt_modifyConf h f, by simp [modifyConf], rfl, rfl⟩

/-- Changes of the prevotes of two nodes commute when the nodes differ, or when the two
changes commute. -/
theorem modifyConf_comm (t : PrefixChainTree) {h1 h2 : Nat}
    {f1 f2 : KeyMap PrevoteMsg → KeyMap PrevoteMsg} (hc : h1 ≠ h2 ∨ ∀ c, f2 (f1 c) = f1 (f2 c)) :
    (t.modifyConf h1 f1).modifyConf h2 f2 = (t.modifyConf h2 f2).modifyConf h1 f1 := by
  simp only [modifyConf, mk.injEq, and_true]
  by_cases h : h1 = h2
  · subst h
    rw [List.modify_modify_eq, List.modify_modify_eq]
    congr 1
    funext n
    simp only [Function.comp_apply, hc.resolve_left (not_not.2 rfl)]
  · exact List.modify_modify_ne _ _ _ h

theorem sameShape_addConfirmations (t : PrefixChainTree) (chain : ChainType) (k : PublicKey)
    (conf : PrevoteMsg) : SameShape t (t.addConfirmations chain k conf).1 := by
  unfold addConfirmations
  split
  · exact sameShape_modifyConf t _ (·.emplace k conf)
  · exact SameShape.refl t

theorem sameShape_removeConfirmations (t : PrefixChainTree) : SameShape t t.removeConfirmations := by
  refine ⟨fun i => ?_, by simp [removeConfirmations], rfl, rfl⟩
  simp only [nodeAt, removeConfirmations, List.getD_eq_getElem?_getD, List.getElem?_map]
  cases t.nodes[i]? <;> rfl

/-! ## `find` and the nodes of the tree -/

theorem lt_of_reachesIn {t : PrefixChainTree} {a : Nat} (ha : a < t.nodes.length) :
    ∀ {fuel h}, t.reachesIn a fuel h = true → h < t.nodes.length
  | fuel + 1, h, hr => by
    simp only [reachesIn, Bool.or_eq_true, beq_iff_eq] at hr
    rcases hr with rfl | hr
    · exact ha
    · by_contra hlt
      have : t.parentOf h = none := by
        simp [parentOf, nodeAt, List.getD_eq_getElem?_getD, List.getElem?_eq_none (not_lt.1 hlt),
          default]
      simp [this] at hr

theorem inTree_lt {t : PrefixChainTree} {h : Nat} (hh : t.inTree h) : h < t.nodes.length :=
  lt_of_reachesIn t.root_lt hh

theorem inTree_root (t : PrefixChainTree) : t.inTree t.root := by
  obtain ⟨n, hn⟩ := Nat.exists_eq_add_of_lt t.root_lt
  simp [inTree, isAncestor, hn, reachesIn]

theorem find_spec {t : PrefixChainTree} {id : BlockId} {h : Nat} (hf : t.find id = some h) :
    t.blockIdOf h = id ∧ t.inTree h := by
  have := (List.find?_range_eq_some.1 hf).1
  simp only [Bool.and_eq_true, beq_iff_eq] at this
  exact this

theorem find_isSome {t : PrefixChainTree} {h : Nat} (hh : t.inTree h) :
    (t.find (t.blockIdOf h)).isSome := by
  refine List.find?_isSome.2 ⟨h, List.mem_range.2 (inTree_lt hh), ?_⟩
  simp [hh]

theorem find_rootId_isSome (t : PrefixChainTree) : (t.find t.rootId).isSome :=
  find_isSome t.inTree_root

/-- A prevote lands when its base block is in the tree. -/
theorem confirmationTarget_isSome {t : PrefixChainTree} {chain : ChainType}
    (hb : (t.find chain.baseBlock).isSome) : (t.confirmationTarget chain).isSome := by
  unfold confirmationTarget
  split
  · rename_i b hb'
    simpa using List.find?_some hb'
  · exact hb

/-- A prevote for a branch of the tree always lands: the branch starts at the root. -/
theorem confirmationTarget_getBranch (t : PrefixChainTree) (id : BlockId) :
    (t.confirmationTarget (t.getBranch id)).isSome :=
  confirmationTarget_isSome t.find_rootId_isSome

/-- The node a prevote lands on is a node of the tree. -/
theorem confirmationTarget_spec {t : PrefixChainTree} {chain : ChainType} {h : Nat}
    (hc : t.confirmationTarget chain = some h) : t.inTree h := by
  unfold confirmationTarget at hc
  split at hc <;> exact (find_spec hc).2

theorem addConfirmations_of_target {t : PrefixChainTree} {chain : ChainType} {h : Nat}
    (ht : t.confirmationTarget chain = some h) (k : PublicKey) (conf : PrevoteMsg) :
    t.addConfirmations chain k conf = (t.modifyConf h (·.emplace k conf), some h) := by
  simp only [addConfirmations, ht]

/-! ## A tree that grows -/

/-- A sum over the places below `n` that pass `p` is at most the sum over the places below
`m ≥ n` that pass `q`, when each place that passes `p` passes `q` with a larger term. -/
theorem sum_filter_range_le {p q : Nat → Bool} {f g : Nat → Nat} {n : Nat}
    (h : ∀ d < n, p d = true → q d = true ∧ f d ≤ g d) :
    ∀ {m}, n ≤ m → (((List.range n).filter p).map f).sum ≤ (((List.range m).filter q).map g).sum := by
  intro m hnm
  have hpq : (List.range n).filter p = ((List.range n).filter q).filter p := by
    rw [List.filter_filter]
    refine List.filter_congr fun d hd => ?_
    by_cases hp : p d
    · simp [hp, (h d (List.mem_range.1 hd) hp).1]
    · simp [hp]
  calc (((List.range n).filter p).map f).sum
      ≤ (((List.range n).filter p).map g).sum := List.sum_le_sum fun d hd => by
        rw [List.mem_filter, List.mem_range] at hd
        exact (h d hd.1 hd.2).2
    _ ≤ (((List.range n).filter q).map g).sum := by
        rw [hpq]; exact ((List.filter_sublist _).map g).sum_le_sum fun _ _ => Nat.zero_le _
    _ ≤ (((List.range m).filter q).map g).sum :=
        ((List.range_sublist.2 hnm).filter q).map g |>.sum_le_sum fun _ _ => Nat.zero_le _

/-- A tree that only gained nodes and prevotes: every node it had keeps its shape and its
prevotes. -/
structure Grows (t t' : PrefixChainTree) : Prop where
  length_le : t.nodes.length ≤ t'.nodes.length
  erase_nodeAt : ∀ h < t.nodes.length, (t'.nodeAt h).erase = (t.nodeAt h).erase
  keys_subset : ∀ h, (t.nodeAt h).confirmationData.keys ⊆ (t'.nodeAt h).confirmationData.keys

namespace Grows

variable {t t' t'' : PrefixChainTree}

theorem refl (t : PrefixChainTree) : Grows t t :=
  ⟨le_rfl, fun _ _ => rfl, fun _ => List.Subset.refl _⟩

theorem trans (h1 : Grows t t') (h2 : Grows t' t'') : Grows t t'' :=
  ⟨h1.1.trans h2.1, fun h hh => (h2.2 h (lt_of_lt_of_le hh h1.1)).trans (h1.2 h hh),
    fun h => (h1.3 h).trans (h2.3 h)⟩

theorem parentOf_eq (hg : Grows t t') {h : Nat} (hh : h < t.nodes.length) :
    t'.parentOf h = t.parentOf h := by
  simpa using congrArg PrefixNode.parent (hg.erase_nodeAt h hh)

theorem activeBpKeys_eq (hg : Grows t t') {h : Nat} (hh : h < t.nodes.length) :
    (t'.nodeAt h).activeBpKeys = (t.nodeAt h).activeBpKeys := by
  simpa using congrArg PrefixNode.activeBpKeys (hg.erase_nodeAt h hh)

theorem reachesIn (hg : Grows t t') {a : Nat} (ha : a < t.nodes.length) :
    ∀ {fuel fuel' h}, fuel ≤ fuel' → t.reachesIn a fuel h = true → t'.reachesIn a fuel' h = true
  | fuel + 1, fuel' + 1, h, hf, hr => by
    have hh := lt_of_reachesIn ha hr
    simp only [PrefixChainTree.reachesIn, Bool.or_eq_true, hg.parentOf_eq hh] at hr ⊢
    rcases hr with hr | hr
    · exact Or.inl hr
    · right
      cases hp : t.parentOf h with
      | none => simp [hp] at hr
      | some p =>
        simp only [hp] at hr ⊢
        exact hg.reachesIn ha (Nat.le_of_succ_le_succ hf) hr

theorem isAncestor (hg : Grows t t') {a h : Nat} (ha : a < t.nodes.length)
    (hr : t.isAncestor a h = true) : t'.isAncestor a h = true :=
  hg.reachesIn ha hg.length_le hr

theorem congr_right (hg : Grows t t') (hn : t''.nodes = t'.nodes) : Grows t t'' := by
  have hat : ∀ i, t''.nodeAt i = t'.nodeAt i := fun i => by simp [nodeAt, hn]
  exact ⟨hn ▸ hg.1, fun h hh => hat h ▸ hg.2 h hh, fun h => hat h ▸ hg.3 h⟩

theorem confCount_le (hg : Grows t t') (h : Nat) : t.confCount h ≤ t'.confCount h := by
  simp only [confCount, KeyMap.size_eq_length_keys]
  exact (List.subperm_of_subset (t.nodeAt h).confirmationData.sorted.nodup (hg.keys_subset h)).length_le

/-- The prevotes at a node and below it never get fewer while the tree grows. -/
theorem confirmationNumber_le (hg : Grows t t') {h : Nat} (hh : h < t.nodes.length) :
    t.confirmationNumber h ≤ t'.confirmationNumber h :=
  sum_filter_range_le (fun _ _ hd => ⟨hg.isAncestor hh hd, hg.confCount_le _⟩) hg.length_le

end Grows

theorem grows_of_sameShape {t t' : PrefixChainTree} (hs : SameShape t t')
    (hk : ∀ h, (t.nodeAt h).confirmationData.keys ⊆ (t'.nodeAt h).confirmationData.keys) :
    Grows t t' :=
  ⟨hs.length_eq.ge, fun h _ => hs.erase_nodeAt h, hk⟩

theorem grows_addConfirmations (t : PrefixChainTree) (chain : ChainType) (k : PublicKey)
    (conf : PrevoteMsg) : Grows t (t.addConfirmations chain k conf).1 := by
  refine grows_of_sameShape (t.sameShape_addConfirmations chain k conf) fun i => ?_
  unfold addConfirmations
  split
  · simp only [nodeAt, modifyConf, List.getD_eq_getElem?_getD, List.getElem?_modify]
    cases t.nodes[i]? with
    | none => exact List.Subset.refl _
    | some n =>
      simp only [Option.map_eq_map, Option.map_some', Option.getD_some]
      split
      · intro x hx; simp [hx]
      · exact List.Subset.refl _
  · exact List.Subset.refl _

theorem nodeAt_push_of_lt (t : PrefixChainTree) (n : PrefixNode) {h : Nat}
    (hh : h < t.nodes.length) : (t.push n).nodeAt h = t.nodeAt h := by
  simp [nodeAt, push, List.getD_eq_getElem?_getD, List.getElem?_append_left hh]

theorem grows_push (t : PrefixChainTree) (n : PrefixNode) : Grows t (t.push n) := by
  refine ⟨by simp [push], fun h hh => by rw [t.nodeAt_push_of_lt n hh], fun h => ?_⟩
  by_cases hh : h < t.nodes.length
  · rw [t.nodeAt_push_of_lt n hh]; exact List.Subset.refl _
  · have : t.nodeAt h = default := by
      simp [nodeAt, List.getD_eq_getElem?_getD, List.getElem?_eq_none (not_lt.1 hh)]
    intro x hx
    simp [this, default, KeyMap.keys, KeyMap.empty] at hx

theorem grows_setRoot (t : PrefixChainTree) {h : Nat} (hh : h < t.nodes.length) :
    Grows t (t.setRoot h hh) := (Grows.refl t).congr_right rfl

theorem grows_setFreshRoot (t : PrefixChainTree) (id : BlockId) : Grows t (t.setFreshRoot id) :=
  (grows_push t { (default : PrefixNode) with blockId := id }).congr_right rfl

end PrefixChainTree

theorem insertBlocks_grows (creator : PublicKey) (active : KeySet) :
    ∀ (h : Nat) (bs : List BlockId) (t : PrefixChainTree),
      t.Grows (insertBlocks creator active h bs t) ∧ (insertBlocks creator active h bs t).root = t.root
  | _, [], t => ⟨PrefixChainTree.Grows.refl t, rfl⟩
  | h, b :: bs, t => by
    unfold insertBlocks
    split
    · exact insertBlocks_grows creator active _ bs t
    · have hpush : t.Grows { t.push ⟨b, some h, creator, active, KeyMap.empty⟩ with
          lastInserted := t.lastInserted.assign creator t.nodes.length } :=
        (t.grows_push _).congr_right rfl
      obtain ⟨hg, hr⟩ := insertBlocks_grows creator active t.nodes.length bs _
      exact ⟨hpush.trans hg, hr⟩

namespace PrefixChainTree

theorem grows_insert {t t' : PrefixChainTree} {chain : ChainType} {creator : PublicKey}
    {active : KeySet} (hi : t.insert chain creator active = some t') : Grows t t' ∧ t'.root = t.root := by
  simp only [insert, Option.map_eq_some'] at hi
  obtain ⟨h, -, rfl⟩ := hi
  exact insertBlocks_grows creator active h chain.blocks t

/-- A grown tree with the same root has the same root id. -/
theorem Grows.rootId_eq {t t' : PrefixChainTree} (hg : Grows t t') (hr : t'.root = t.root) :
    t'.rootId = t.rootId := by
  simpa [rootId, blockIdOf, hr] using congrArg PrefixNode.blockId (hg.erase_nodeAt t.root t.root_lt)

end PrefixChainTree

end randpa_finality
