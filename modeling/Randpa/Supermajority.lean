-- A supermajority decides a round. Prevotes from more than two thirds of the keys active at a
-- node, each landing on that node, make a round in its prevote phase ready to precommit with
-- that node as its best node; when the prevote phase ends, the node's own precommits and
-- those of the prevoters make the round done, and the node's block is published and becomes
-- the last irreversible block.
import Randpa.Progress
import Randpa.PrevoteOrder

namespace randpa_finality

/-! ## Prevotes held at one node -/

theorem length_insertKey_of_not_mem {k : PublicKey} :
    ∀ {l : List PublicKey}, k ∉ l → (insertKey k l).length = l.length + 1
  | [], _ => rfl
  | a :: l, hk => by
    have hka : k ≠ a := fun h => hk (h ▸ List.mem_cons_self a l)
    unfold insertKey
    split_ifs
    · rfl
    · simp [length_insertKey_of_not_mem fun h => hk (List.mem_cons_of_mem a h)]

theorem KeyMap.size_emplace_of_not_mem {V : Type} (m : KeyMap V) {k : PublicKey} (v : V)
    (hk : k ∉ m.keys) : (m.emplace k v).size = m.size + 1 := by
  rw [size_eq_length_keys, size_eq_length_keys, keys_emplace, length_insertKey_of_not_mem hk]

@[simp]
theorem PrefixNode.hasConfirmation_emplace (n : PrefixNode) (k x : PublicKey) (c : PrevoteMsg) :
    { n with confirmationData := n.confirmationData.emplace k c }.hasConfirmation x = true ↔
      x = k ∨ n.hasConfirmation x = true := by
  simp [hasConfirmation]

/-- Two engines that agree on all that the outcome of a round reads and writes of them: the
tree, the last irreversible block and the published blocks. -/
structure Randpa.SameView (e e' : Randpa) : Prop where
  tree : e'.prefixTree = e.prefixTree
  lib : e'.lib = e.lib
  published : published e'.outbox = published e.outbox

namespace Randpa.SameView

variable {e e' e'' : Randpa}

theorem refl (e : Randpa) : e.SameView e := ⟨rfl, rfl, rfl⟩

theorem trans (h1 : e.SameView e') (h2 : e'.SameView e'') : e.SameView e'' :=
  ⟨h2.tree.trans h1.tree, h2.lib.trans h1.lib, h2.published.trans h1.published⟩

theorem symm (h : e.SameView e') : e'.SameView e := ⟨h.tree.symm, h.lib.symm, h.published.symm⟩

theorem bcast (e : Randpa) (d : NetMsgData) : e.SameView (e.bcast d) := by
  obtain ⟨out, ho, hp⟩ := e.bcast_outbox d
  exact ⟨e.bcast_prefixTree d, e.bcast_lib d, by rw [ho, published_append, hp, List.append_nil]⟩

end Randpa.SameView

namespace RandpaRound

/-- What prevotes of the keys `ks`, each landing on node `h`, do to a round and its engine:
the keys are marked, node `h` holds one more prevote for each, the tree keeps its shape, and
nothing else changes of the round but its state and best node, nor of the engine's last
irreversible block and published blocks. -/
structure HeldAt (h : Nat) (ks : List PublicKey) (r : RandpaRound) (e : Randpa) (r' : RandpaRound)
    (e' : Randpa) : Prop where
  round : ∃ P st b, r' = { r with prevotedKeys := P, state := st, bestNode := b }
  shape : e.prefixTree.SameShape e'.prefixTree
  marked : ∀ k, k ∈ r'.prevotedKeys ↔ k ∈ r.prevotedKeys ∨ k ∈ ks
  held : ∀ k, (e'.prefixTree.nodeAt h).hasConfirmation k = true ↔
    (e.prefixTree.nodeAt h).hasConfirmation k = true ∨ k ∈ ks
  count : e'.prefixTree.confCount h = e.prefixTree.confCount h + ks.length
  lib : e'.lib = e.lib
  published : published e'.outbox = published e.outbox

namespace HeldAt

variable {h : Nat} {ks ks' : List PublicKey} {r r' r'' : RandpaRound} {e e' e'' : Randpa}

theorem refl (r : RandpaRound) (e : Randpa) : HeldAt h [] r e r e :=
  ⟨⟨_, _, _, rfl⟩, .refl _, by simp, by simp, rfl, rfl, rfl⟩

theorem trans (h1 : HeldAt h ks r e r' e') (h2 : HeldAt h ks' r' e' r'' e'') :
    HeldAt h (ks ++ ks') r e r'' e'' := by
  obtain ⟨⟨P1, s1, b1, rfl⟩, hs1, hm1, hh1, hc1, hl1, hp1⟩ := h1
  obtain ⟨⟨P2, s2, b2, rfl⟩, hs2, hm2, hh2, hc2, hl2, hp2⟩ := h2
  refine ⟨⟨P2, s2, b2, rfl⟩, hs1.trans hs2, fun k => ?_, fun k => ?_, ?_, hl2.trans hl1, hp2.trans hp1⟩
  · rw [hm2, hm1, List.mem_append, or_assoc]
  · rw [hh2, hh1, List.mem_append, or_assoc]
  · rw [hc2, hc1, List.length_append, Nat.add_assoc]

/-- The relation reads the engines only through their views. -/
theorem congr (hh : HeldAt h ks r e r' e') {f f' : Randpa} (hf : e.SameView f) (hf' : e'.SameView f') :
    HeldAt h ks r f r' f' := by
  obtain ⟨hr, hs, hm, hl, hc, hlib, hp⟩ := hh
  refine ⟨hr, ?_, hm, ?_, ?_, ?_, ?_⟩
  · rw [hf.tree, hf'.tree]; exact hs
  · rw [hf.tree, hf'.tree]; exact hl
  · rw [hf.tree, hf'.tree]; exact hc
  · rw [hf.lib, hf'.lib]; exact hlib
  · rw [hf.published, hf'.published]; exact hp

theorem num (hh : HeldAt h ks r e r' e') : r'.num = r.num := by
  obtain ⟨_, _, _, rfl⟩ := hh.round; rfl

theorem proof (hh : HeldAt h ks r e r' e') : r'.proof = r.proof := by
  obtain ⟨_, _, _, rfl⟩ := hh.round; rfl

theorem signatureProviders (hh : HeldAt h ks r e r' e') : r'.signatureProviders = r.signatureProviders := by
  obtain ⟨_, _, _, rfl⟩ := hh.round; rfl

theorem precommitedKeys (hh : HeldAt h ks r e r' e') : r'.precommitedKeys = r.precommitedKeys := by
  obtain ⟨_, _, _, rfl⟩ := hh.round; rfl

end HeldAt

/-- The round takes prevotes and has settled on no node but `h`: it is in the prevote phase,
or ready to precommit with `h` as its best node. -/
def PrevotingAt (h : Nat) (r : RandpaRound) : Prop :=
  r.state = .prevote ∨ (r.state = .readyToPrecommit ∧ r.bestNode = some h)

theorem PrevotingAt.prevoting {h : Nat} {r : RandpaRound} (hp : PrevotingAt h r) : Prevoting r.state :=
  hp.imp id And.left

/-- Once node `h` passes the prevote threshold, the round is ready to precommit. -/
def Settled (h : Nat) (r : RandpaRound) (e : Randpa) : Prop :=
  isPrevoteThresholdReached e.prefixTree h = true → r.state = .readyToPrecommit

/-- One prevote landing on node `h`, of a key whose prevote `h` does not hold, in a round
prevoting at `h`: the key is marked and held at `h`, the round still prevotes at `h`, and it
is ready to precommit if `h` passes the threshold. -/
theorem addPrevote_at {r : RandpaRound} {e : Randpa} {data : PrevoteType} {k : PublicKey} {h : Nat}
    (ht : e.prefixTree.confirmationTarget ⟨data.baseBlock, data.blocks⟩ = some h)
    (hk : (e.prefixTree.nodeAt h).hasConfirmation k = false) (hp : PrevotingAt h r) :
    ∃ r' e', r.addPrevote ⟨data, [k]⟩ e = .ok (r', e') ∧ HeldAt h [k] r e r' e' ∧
      PrevotingAt h r' ∧ Settled h r' e' := by
  have hh := PrefixChainTree.inTree_lt (PrefixChainTree.confirmationTarget_spec ht)
  have hnode := e.prefixTree.nodeAt_modifyConf_self hh (·.emplace k ⟨data, [k]⟩)
  have held : ∀ st b, HeldAt h [k] r e
      { r with prevotedKeys := r.prevotedKeys.insert k, state := st, bestNode := b }
      { e with prefixTree := e.prefixTree.modifyConf h (·.emplace k ⟨data, [k]⟩) } := fun st b =>
    ⟨⟨_, _, _, rfl⟩, e.prefixTree.sameShape_modifyConf h (·.emplace k ⟨data, [k]⟩),
      fun x => by simp [KeySet.mem_insert, or_comm],
      fun x => by simp [hnode, or_comm],
      by simp only [PrefixChainTree.confCount, hnode, List.length_singleton]
         exact KeyMap.size_emplace_of_not_mem _ _ (by simpa [PrefixNode.hasConfirmation] using hk),
      rfl, rfl⟩
  simp only [addPrevote, NetworkMsg.publicKeys, PrefixChainTree.addConfirmations_of_target ht]
  split
  · exact ⟨_, _, rfl, held _ _, .inr ⟨rfl, rfl⟩, fun _ => rfl⟩
  · rename_i hn
    refine ⟨_, _, rfl, held _ _, hp, fun hth => ?_⟩
    simpa [hth] using hn

/-- The loop of `on(prevote_msg)` for a prevote of the round landing on node `h`, over keys
active at `h`, new to the round and to `h`, none twice: every key is taken. -/
theorem onPrevoteLoop_at (msg : PrevoteMsg) {h : Nat} :
    ∀ (ks : List PublicKey) (r : RandpaRound) (e : Randpa), msg.data.roundNum = r.num →
      e.prefixTree.confirmationTarget ⟨msg.data.baseBlock, msg.data.blocks⟩ = some h →
      (∀ k ∈ ks, k ∈ (e.prefixTree.nodeAt h).activeBpKeys ∧ k ∉ r.prevotedKeys ∧
        (e.prefixTree.nodeAt h).hasConfirmation k = false) → ks.Nodup → PrevotingAt h r →
      ∃ r' e', onPrevoteLoop msg ks r e = .ok (r', e') ∧ HeldAt h ks r e r' e' ∧
        PrevotingAt h r' ∧ (ks ≠ [] ∨ Settled h r e → Settled h r' e')
  | [], r, e, _, _, _, _, hp => ⟨r, e, rfl, .refl r e, hp, fun hs => hs.resolve_left (by simp)⟩
  | k :: ks, r, e, hn, ht, hks, hnd, hp => by
    obtain ⟨hka, hkP, hkh⟩ := hks k (List.mem_cons_self k ks)
    have hv : r.validatePrevote e.prefixTree msg k = true := by
      simp [validatePrevote, findLastNode_eq, ht, hn, hkP, hka]
    obtain ⟨r1, e1, h1, hh1, hp1, hs1⟩ := addPrevote_at ht hkh hp
    have hks1 : ∀ x ∈ ks, x ∈ (e1.prefixTree.nodeAt h).activeBpKeys ∧ x ∉ r1.prevotedKeys ∧
        (e1.prefixTree.nodeAt h).hasConfirmation x = false := by
      intro x hx
      have hxk : x ≠ k := fun hxk => (List.nodup_cons.1 hnd).1 (hxk ▸ hx)
      obtain ⟨hxa, hxP, hxh⟩ := hks x (List.mem_cons_of_mem k hx)
      refine ⟨hh1.shape.activeBpKeys_eq h ▸ hxa, fun hm => ?_, ?_⟩
      · rcases (hh1.marked x).1 hm with hm | hm
        · exact hxP hm
        · exact hxk (List.mem_singleton.1 hm)
      · rw [← Bool.not_eq_true, hh1.held x]
        simp [hxh, hxk]
    obtain ⟨r2, e2, h2, hh2, hp2, hs2⟩ := onPrevoteLoop_at msg ks r1 e1 (hh1.num ▸ hn)
      (by rw [hh1.shape.confirmationTarget_eq]; exact ht) hks1 (List.nodup_cons.1 hnd).2 hp1
    refine ⟨r2, e2, ?_, hh1.trans hh2, hp2, fun _ => hs2 (.inr hs1)⟩
    simp only [onPrevoteLoop, hv, if_true, h1, except_ok_bind, h2]

/-- Prevote messages of round `r` for node `h` of tree `t`: each is of the round and lands on
`h`, and is signed by keys active at `h` that have not prevoted in the round and whose
prevotes `h` does not hold, no key twice. -/
structure PrevotesFor (r : RandpaRound) (t : PrefixChainTree) (h : Nat) (ms : List PrevoteMsg) : Prop where
  round : ∀ m ∈ ms, m.data.roundNum = r.num
  lands : ∀ m ∈ ms, t.confirmationTarget ⟨m.data.baseBlock, m.data.blocks⟩ = some h
  active : ∀ m ∈ ms, ∀ k ∈ m.publicKeys, k ∈ (t.nodeAt h).activeBpKeys
  fresh : ∀ m ∈ ms, ∀ k ∈ m.publicKeys, k ∉ r.prevotedKeys ∧ (t.nodeAt h).hasConfirmation k = false
  nodup : (ms.flatMap NetworkMsg.publicKeys).Nodup

/-- Prevotes that carry a key land on a node of the store. -/
theorem PrevotesFor.lt {r : RandpaRound} {t : PrefixChainTree} {h : Nat} {ms : List PrevoteMsg}
    (hv : PrevotesFor r t h ms) (hne : ms.flatMap NetworkMsg.publicKeys ≠ []) : h < t.nodes.length := by
  obtain ⟨m, hm, -⟩ := List.mem_flatMap.1 (List.exists_mem_of_ne_nil _ hne).choose_spec
  exact PrefixChainTree.inTree_lt (PrefixChainTree.confirmationTarget_spec (hv.lands m hm))

/-- What is left of the prevotes once the first message is handled: they are for the round
and the node as it is then. -/
theorem PrevotesFor.tail {r r' : RandpaRound} {e e' : Randpa} {h : Nat} {m : PrevoteMsg}
    {ms : List PrevoteMsg} (hv : PrevotesFor r e.prefixTree h (m :: ms))
    (hh : HeldAt h m.publicKeys r e r' e') : PrevotesFor r' e'.prefixTree h ms := by
  have hnd := List.nodup_append.1 (List.flatMap_cons m ms _ ▸ hv.nodup)
  have hout : ∀ m' ∈ ms, ∀ k ∈ m'.publicKeys, k ∉ m.publicKeys := fun m' hm k hk hkm =>
    hnd.2.2 hkm (List.mem_flatMap.2 ⟨m', hm, hk⟩)
  refine ⟨fun m' hm => hh.num ▸ hv.round m' (.tail m hm), fun m' hm => ?_, fun m' hm k hk => ?_,
    fun m' hm k hk => ⟨fun hP => ?_, ?_⟩, hnd.2.1⟩
  · rw [hh.shape.confirmationTarget_eq]; exact hv.lands m' (.tail m hm)
  · rw [hh.shape.activeBpKeys_eq]; exact hv.active m' (.tail m hm) k hk
  · exact ((hh.marked k).1 hP).elim (hv.fresh m' (.tail m hm) k hk).1 (hout m' hm k hk)
  · rw [← Bool.not_eq_true, hh.held k]
    simp [(hv.fresh m' (.tail m hm) k hk).2, hout m' hm k hk]

/-- Settling carries along two runs of prevotes: one that takes a key settles the round. -/
theorem settled_append {h : Nat} {ks ks' : List PublicKey} {r r' r'' : RandpaRound} {e e' e'' : Randpa}
    (h1 : ks ≠ [] ∨ Settled h r e → Settled h r' e') (h2 : ks' ≠ [] ∨ Settled h r' e' → Settled h r'' e'') :
    ks ++ ks' ≠ [] ∨ Settled h r e → Settled h r'' e'' := by
  intro hs
  by_cases hk : ks = []
  · subst hk
    exact h2 (hs.imp (by simpa using ·) fun hs0 => h1 (.inr hs0))
  · exact h2 (.inr (h1 (.inl hk)))

/-- The first of the prevote messages of the round for node `h`, delivered to a round
prevoting at `h`: every key it carries is taken. -/
theorem onPrevote_at {h : Nat} {m : PrevoteMsg} {ms : List PrevoteMsg} {r : RandpaRound} {e : Randpa}
    (hv : PrevotesFor r e.prefixTree h (m :: ms)) (hp : PrevotingAt h r) :
    ∃ r' e', r.onPrevote m e = .ok (r', e') ∧ HeldAt h m.publicKeys r e r' e' ∧ PrevotingAt h r' ∧
      (m.publicKeys ≠ [] ∨ Settled h r e → Settled h r' e') := by
  have hm := List.mem_cons_self m ms
  rw [onPrevote_eq, if_pos hp.prevoting]
  exact onPrevoteLoop_at m m.publicKeys r e (hv.round m hm) (hv.lands m hm)
    (fun k hk => ⟨hv.active m hm k hk, hv.fresh m hm k hk⟩)
    (List.nodup_append.1 (List.flatMap_cons m ms _ ▸ hv.nodup)).1 hp

/-- Prevote messages of the round for node `h`, delivered to a round prevoting at `h`: every
signed prevote is taken and held at `h`. -/
theorem onPrevotes_at {h : Nat} :
    ∀ (ms : List PrevoteMsg) (r : RandpaRound) (e : Randpa), PrevotesFor r e.prefixTree h ms →
      PrevotingAt h r →
      ∃ r' e', onPrevotes ms r e = .ok (r', e') ∧ HeldAt h (ms.flatMap NetworkMsg.publicKeys) r e r' e' ∧
        PrevotingAt h r' ∧ (ms.flatMap NetworkMsg.publicKeys ≠ [] ∨ Settled h r e → Settled h r' e')
  | [], r, e, _, hp => ⟨r, e, rfl, .refl r e, hp, fun hs => hs.resolve_left (by simp)⟩
  | m :: ms, r, e, hv, hp => by
    obtain ⟨r1, e1, h1, hh1, hp1, hs1⟩ := onPrevote_at hv hp
    obtain ⟨r2, e2, h2, hh2, hp2, hs2⟩ := onPrevotes_at ms r1 e1 (hv.tail hh1) hp1
    refine ⟨r2, e2, ?_, List.flatMap_cons m ms _ ▸ hh1.trans hh2, hp2,
      List.flatMap_cons m ms _ ▸ settled_append hs1 hs2⟩
    rw [onPrevotes, h1, except_ok_bind]
    exact h2

/-- Prevotes of more than two thirds of the keys active at node `h`, held at `h` by a round
that still prevotes at `h` and has settled once they are taken, make it ready to precommit at
`h`: node `h` holds a prevote of every key, so its count passes the threshold. -/
theorem HeldAt.ready {h : Nat} {ms : List PrevoteMsg} {r r' : RandpaRound} {e e' : Randpa}
    (hv : PrevotesFor r e.prefixTree h ms)
    (hq : (ms.flatMap NetworkMsg.publicKeys).length > 2 * (e.prefixTree.nodeAt h).activeBpKeys.size / 3)
    (hh : HeldAt h (ms.flatMap NetworkMsg.publicKeys) r e r' e') (hp : PrevotingAt h r')
    (hset : ms.flatMap NetworkMsg.publicKeys ≠ [] ∨ Settled h r e → Settled h r' e') :
    r'.state = .readyToPrecommit ∧ r'.bestNode = some h := by
  have hne : ms.flatMap NetworkMsg.publicKeys ≠ [] := fun h0 => by simp [h0] at hq
  have hlt : h < e'.prefixTree.nodes.length := hh.shape.length_eq ▸ hv.lt hne
  have hth : isPrevoteThresholdReached e'.prefixTree h = true := by
    have hc := PrefixChainTree.confCount_le_confirmationNumber hlt
    have hn := hh.count
    simp only [isPrevoteThresholdReached, hh.shape.activeBpKeys_eq, decide_eq_true_eq]
    omega
  have hready := hset (.inl hne) hth
  exact ⟨hready, (hp.resolve_left (by simp [hready])).2⟩

/-- Prevotes of more than two thirds of the keys active at node `h`, all landing on `h`, make
a round in its prevote phase ready to precommit with `h` as its best node. -/
theorem onPrevotes_ready {r : RandpaRound} {e : Randpa} {h : Nat} {ms : List PrevoteMsg}
    (hs : r.state = .prevote) (hv : PrevotesFor r e.prefixTree h ms)
    (hq : (ms.flatMap NetworkMsg.publicKeys).length > 2 * (e.prefixTree.nodeAt h).activeBpKeys.size / 3) :
    ∃ r' e', onPrevotes ms r e = .ok (r', e') ∧ HeldAt h (ms.flatMap NetworkMsg.publicKeys) r e r' e' ∧
      r'.state = .readyToPrecommit ∧ r'.bestNode = some h := by
  obtain ⟨r', e', h1, hh, hp, hset⟩ := onPrevotes_at ms r e hv (.inl hs)
  exact ⟨r', e', h1, hh, hh.ready hv hq hp hset⟩

/-! ## The precommit phase -/

/-- Precommit messages handed to `on(precommit_msg)` one after another. -/
def onPrecommits : List PrecommitMsg → RandpaRound → Randpa → Except RandpaError (RandpaRound × Randpa)
  | [], r, e => .ok (r, e)
  | m :: ms, r, e => do
    let (r, e) ← r.onPrecommit m e
    onPrecommits ms r e

/-- A round in its precommit phase at best node `h` of `e0`'s tree, whose proof names the
node's block: either it still precommits, with `n` precommits, not past the threshold, over an
engine with `e0`'s tree, last irreversible block and published blocks; or it is done, and the
block is published after `e0`'s and is the last irreversible block. -/
structure Finalizing (e0 : Randpa) (h n : Nat) (r : RandpaRound) (e : Randpa) : Prop where
  best : r.bestNode = some h
  block : r.proof.bestBlock = e0.prefixTree.blockIdOf h
  phase : (r.state = .precommit ∧ e0.SameView e ∧ r.proof.precommits.length = n ∧
      n ≤ 2 * (e0.prefixTree.nodeAt h).activeBpKeys.size / 3) ∨
    (r.state = .done ∧ e.lib = e0.prefixTree.blockIdOf h ∧
      published e.outbox = published e0.outbox ++ [e0.prefixTree.blockIdOf h])

@[simp]
theorem Randpa.published_onProofGained (e : Randpa) (p : ProofType) :
    published (e.onProofGained p).outbox = published e.outbox ++ [p.bestBlock] := by
  obtain ⟨out, ho, hp⟩ := e.onProofGained_outbox p
  rw [ho, published_append, published_append, hp, published_finality, List.append_nil]

/-- `finish_round` called back by a done round above the last irreversible block gains its
proof and makes its best block the last irreversible block. -/
theorem Randpa.finishRound_publishes (e : Randpa) {r : RandpaRound} (hd : r.state = .done)
    (hl : getBlockNum e.lib < getBlockNum r.proof.bestBlock) :
    e.finishRound r = .ok (r, (e.onProofGained r.proof).updateLib r.proof.bestBlock) := by
  simp [Randpa.finishRound, finish, getProof, hd, hl, except_ok_bind]

namespace Finalizing

variable {e0 e : Randpa} {h n : Nat} {r : RandpaRound}

/-- A done round finalizes with any count. -/
theorem of_done (hf : Finalizing e0 h n r e) (hd : r.state = .done) (m : Nat) : Finalizing e0 h m r e :=
  ⟨hf.best, hf.block, .inr (hf.phase.resolve_left fun hp => by simp [hd] at hp)⟩

/-- Past the threshold, the round is done: the block is published and is the last
irreversible block. -/
theorem done (hf : Finalizing e0 h n r e) (hn : n > 2 * (e0.prefixTree.nodeAt h).activeBpKeys.size / 3) :
    r.state = .done ∧ e.lib = e0.prefixTree.blockIdOf h ∧
      published e.outbox = published e0.outbox ++ [e0.prefixTree.blockIdOf h] :=
  hf.phase.resolve_left fun ⟨_, _, _, hle⟩ => absurd hle (Nat.not_le.2 hn)

/-- The relation reads the engine only through its view. -/
theorem congr (hf : Finalizing e0 h n r e) {e' : Randpa} (hv : e.SameView e') : Finalizing e0 h n r e' := by
  refine ⟨hf.best, hf.block, hf.phase.imp (fun ⟨hs, hv0, hc⟩ => ⟨hs, hv0.trans hv, hc⟩) ?_⟩
  rintro ⟨hd, hl, hp⟩
  exact ⟨hd, hv.lib ▸ hl, hv.published ▸ hp⟩

end Finalizing

variable {e0 : Randpa} {h : Nat}

/-- One precommit, added to a round that finalizes at `h` above the last irreversible block:
one more precommit is counted, and past the threshold the round is done and publishes. -/
theorem addPrecommit_finalizing {e : Randpa} {r : RandpaRound} {n : Nat} (data : PrecommitType)
    (k : PublicKey) (hl : getBlockNum e0.lib < getBlockNum (e0.prefixTree.blockIdOf h))
    (hf : Finalizing e0 h n r e) :
    ∃ r' e', r.addPrecommit ⟨data, [k]⟩ e = .ok (r', e') ∧ Finalizing e0 h (n + 1) r' e' ∧
      r'.num = r.num ∧ r'.precommitedKeys = r.precommitedKeys.insert k := by
  obtain ⟨hb, hblk, hph⟩ := hf
  simp only [addPrecommit, NetworkMsg.publicKeys]
  split
  · rename_i hd
    exact ⟨_, e, rfl, ⟨hb, hblk, .inr (hph.resolve_left fun hp => by simp_all)⟩, rfl, rfl⟩
  · rename_i hd
    obtain ⟨hst, hv, hcnt, -⟩ := hph.resolve_right fun hp => hd hp.1
    simp only [isPrecommitThresholdReached, hb, except_ok_bind, List.length_append, hcnt, hv.tree,
      List.length_singleton]
    split
    · rename_i hth
      rw [Randpa.finishRound_publishes e rfl (by rw [hv.lib]; exact hblk ▸ hl)]
      refine ⟨_, _, rfl, ⟨rfl, hblk, .inr ⟨rfl, hblk, ?_⟩⟩, rfl, rfl⟩
      rw [Randpa.updateLib_outbox, Randpa.published_onProofGained, hv.published]
      exact congrArg (published e0.outbox ++ [·]) hblk
    · rename_i hth
      exact ⟨_, e, rfl, ⟨rfl, hblk, .inl ⟨hst, hv, by simp [hcnt], by simpa using hth⟩⟩, rfl, rfl⟩

/-- The loop of `precommit()`: each of the round's own keys adds a precommit. -/
theorem precommitLoop_finalizing (data : PrecommitType)
    (hl : getBlockNum e0.lib < getBlockNum (e0.prefixTree.blockIdOf h)) :
    ∀ (ps : List PublicKey) (r : RandpaRound) (e : Randpa) (n : Nat), Finalizing e0 h n r e →
      ∃ r' e', precommitLoop data ps r e = .ok (r', e') ∧ Finalizing e0 h (n + ps.length) r' e' ∧
        r'.num = r.num ∧ ∀ k ∈ r'.precommitedKeys, k ∈ r.precommitedKeys ∨ k ∈ ps
  | [], r, e, n, hf => ⟨r, e, rfl, hf, rfl, fun _ hk => .inl hk⟩
  | p :: ps, r, e, n, hf => by
    obtain ⟨r1, e1, h1, hf1, hn1, hk1⟩ := addPrecommit_finalizing data p hl hf
    obtain ⟨r2, e2, h2, hf2, hn2, hk2⟩ := precommitLoop_finalizing data hl ps r1 e1 (n + 1) hf1
    refine ⟨r2, e2, ?_, by simpa [Nat.add_assoc, Nat.add_comm 1] using hf2, hn2.trans hn1,
      fun k hk => ?_⟩
    · simp only [precommitLoop, h1, except_ok_bind]; exact h2
    · rcases hk2 k hk with hk | hk
      · rw [hk1, KeySet.mem_insert] at hk
        exact hk.elim (fun hk => .inr (hk ▸ List.mem_cons_self p ps)) .inl
      · exact .inr (List.mem_cons_of_mem p hk)

/-- The loop of `on(precommit_msg)` for a precommit of the round's best block, over keys new
to the round whose prevotes the best node holds, none twice: while the round precommits,
every key is taken. -/
theorem onPrecommitLoop_finalizing (msg : PrecommitMsg)
    (hl : getBlockNum e0.lib < getBlockNum (e0.prefixTree.blockIdOf h)) :
    ∀ (ks : List PublicKey) (r : RandpaRound) (e : Randpa) (n : Nat), Finalizing e0 h n r e →
      msg.data = ⟨r.num, e0.prefixTree.blockIdOf h⟩ →
      (∀ k ∈ ks, k ∉ r.precommitedKeys ∧ (e0.prefixTree.nodeAt h).hasConfirmation k = true) →
      ks.Nodup →
      ∃ r' e', onPrecommitLoop msg ks r e = .ok (r', e') ∧ Finalizing e0 h (n + ks.length) r' e' ∧
        r'.num = r.num ∧ ∀ k ∈ r'.precommitedKeys, k ∈ r.precommitedKeys ∨ k ∈ ks
  | [], r, e, n, hf, _, _, _ => ⟨r, e, rfl, hf, rfl, fun _ hk => .inl hk⟩
  | k :: ks, r, e, n, hf, hd, hks, hnd => by
    obtain ⟨hkP, hkh⟩ := hks k (List.mem_cons_self k ks)
    have hlen : n + 1 + ks.length = n + (k :: ks).length := by simp only [List.length_cons]; omega
    have hrest : ∀ x ∈ ks, x ≠ k ∧ x ∉ r.precommitedKeys ∧
        (e0.prefixTree.nodeAt h).hasConfirmation x = true := fun x hx =>
      ⟨fun hxk => (List.nodup_cons.1 hnd).1 (hxk ▸ hx), hks x (List.mem_cons_of_mem k hx)⟩
    have hbs : r.bestNode.isSome := by simp [hf.best]
    obtain ⟨v, hv⟩ := validatePrecommit_ok hbs e.prefixTree msg k
    cases v with
    | false =>
      -- a round that still precommits takes the key, so this one is done
      have hd' : r.state = .done := by
        refine (hf.phase.resolve_left fun ⟨_, hve, _⟩ => ?_).1
        simp [validatePrecommit, hd, hkP, hf.best, hve.tree, hkh] at hv
      obtain ⟨r2, e2, h2, hf2, hn2, hk2⟩ := onPrecommitLoop_finalizing msg hl ks r e (n + 1)
        (hf.of_done hd' _) hd (fun x hx => (hrest x hx).2) (List.nodup_cons.1 hnd).2
      refine ⟨r2, e2, ?_, hlen ▸ hf2, hn2, fun x hx => (hk2 x hx).imp_right (List.mem_cons_of_mem k)⟩
      simp only [onPrecommitLoop, hv, except_ok_bind, Bool.false_eq_true, if_false]; exact h2
    | true =>
      obtain ⟨r1, e1, h1, hf1, hn1, hk1⟩ := addPrecommit_finalizing msg.data k hl hf
      obtain ⟨r2, e2, h2, hf2, hn2, hk2⟩ := onPrecommitLoop_finalizing msg hl ks r1 e1 (n + 1) hf1
        (hn1 ▸ hd) (fun x hx => ⟨by rw [hk1, KeySet.mem_insert]; exact not_or.2 ⟨(hrest x hx).1,
          (hrest x hx).2.1⟩, (hrest x hx).2.2⟩) (List.nodup_cons.1 hnd).2
      refine ⟨r2, e2, ?_, hlen ▸ hf2, hn2.trans hn1, fun x hx => ?_⟩
      · simp only [onPrecommitLoop, hv, except_ok_bind, if_true, h1]; exact h2
      · rcases hk2 x hx with hx | hx
        · rw [hk1, KeySet.mem_insert] at hx
          exact hx.elim (fun hx => .inr (hx ▸ List.mem_cons_self k ks)) .inl
        · exact .inr (List.mem_cons_of_mem k hx)

/-- `on(precommit_msg)` on a round that finalizes: a done round takes nothing, and one that
still precommits takes every key. -/
theorem onPrecommit_finalizing {msg : PrecommitMsg} {r : RandpaRound} {e : Randpa} {n : Nat}
    (hl : getBlockNum e0.lib < getBlockNum (e0.prefixTree.blockIdOf h)) (hf : Finalizing e0 h n r e)
    (hd : msg.data = ⟨r.num, e0.prefixTree.blockIdOf h⟩)
    (hks : ∀ k ∈ msg.publicKeys, k ∉ r.precommitedKeys ∧ (e0.prefixTree.nodeAt h).hasConfirmation k = true)
    (hnd : msg.publicKeys.Nodup) :
    ∃ r' e', r.onPrecommit msg e = .ok (r', e') ∧ Finalizing e0 h (n + msg.publicKeys.length) r' e' ∧
      r'.num = r.num ∧ ∀ k ∈ r'.precommitedKeys, k ∈ r.precommitedKeys ∨ k ∈ msg.publicKeys := by
  unfold onPrecommit
  split
  · rename_i hs
    have hd' : r.state = .done := by
      refine (hf.phase.resolve_left fun hp => ?_).1
      simp [hp.1] at hs
    exact ⟨r, e, rfl, hf.of_done hd' _, rfl, fun _ hk => .inl hk⟩
  · exact onPrecommitLoop_finalizing msg hl _ r e n hf hd hks hnd

/-- Precommit messages of the round's best block, over keys new to the round whose prevotes
the best node holds, no key twice: the round counts every key until it is done. -/
theorem onPrecommits_finalizing (hl : getBlockNum e0.lib < getBlockNum (e0.prefixTree.blockIdOf h)) :
    ∀ (ms : List PrecommitMsg) (r : RandpaRound) (e : Randpa) (n : Nat), Finalizing e0 h n r e →
      (∀ m ∈ ms, m.data = ⟨r.num, e0.prefixTree.blockIdOf h⟩) →
      (∀ m ∈ ms, ∀ k ∈ m.publicKeys, k ∉ r.precommitedKeys ∧
        (e0.prefixTree.nodeAt h).hasConfirmation k = true) →
      (ms.flatMap NetworkMsg.publicKeys).Nodup →
      ∃ r' e', onPrecommits ms r e = .ok (r', e') ∧
        Finalizing e0 h (n + (ms.flatMap NetworkMsg.publicKeys).length) r' e'
  | [], r, e, n, hf, _, _, _ => ⟨r, e, rfl, hf⟩
  | m :: ms, r, e, n, hf, hd, hks, hnd => by
    have hm := List.mem_cons_self m ms
    have hnd' := List.nodup_append.1 (List.flatMap_cons m ms _ ▸ hnd)
    obtain ⟨r1, e1, h1, hf1, hn1, hk1⟩ := onPrecommit_finalizing hl hf (hd m hm) (hks m hm) hnd'.1
    obtain ⟨r2, e2, h2, hf2⟩ := onPrecommits_finalizing hl ms r1 e1 _ hf1
      (fun m' hm' => hn1 ▸ hd m' (.tail m hm'))
      (fun m' hm' k hk => ⟨fun hk' => (hk1 k hk').elim (hks m' (.tail m hm') k hk).1
        fun hkm => hnd'.2.2 hkm (List.mem_flatMap.2 ⟨m', hm', hk⟩),
        (hks m' (.tail m hm') k hk).2⟩) hnd'.2.1
    refine ⟨r2, e2, ?_, by simpa [Nat.add_assoc] using hf2⟩
    rw [onPrecommits, h1, except_ok_bind]; exact h2

/-- A round ready to precommit at best node `h`, with no precommit yet and `h`'s block above
the last irreversible block, ends its prevote phase: it precommits with its own keys, one
precommit each, and finalizes. -/
theorem endPrevote_finalizing {r : RandpaRound} {e : Randpa} (hs : r.state = .readyToPrecommit)
    (hb : r.bestNode = some h) (hpre : r.proof.precommits = [])
    (hl : getBlockNum e.lib < getBlockNum (e.prefixTree.blockIdOf h)) :
    ∃ r' e', r.endPrevote e = .ok (r', e') ∧ Finalizing e h r.signatureProviders.length r' e' ∧
      r'.num = r.num ∧ ∀ k ∈ r'.precommitedKeys, k ∈ r.precommitedKeys ∨ k ∈ r.signatureProviders := by
  set r0 : RandpaRound := { r with
    state := .precommit
    bestNode := some h
    proof := { r.proof with
      roundNum := r.num
      bestBlock := (e.prefixTree.nodeAt h).blockId
      prevotes := r.proof.prevotes ++ (e.prefixTree.nodeAt h).confirmationData.values } }
  have hf0 : Finalizing e h 0 r0 e := ⟨rfl, rfl, .inl ⟨rfl, .refl e, by simp [r0, hpre], Nat.zero_le _⟩⟩
  obtain ⟨r1, e1, h1, hf1, hn1, hk1⟩ :=
    precommitLoop_finalizing ⟨r.num, e.prefixTree.blockIdOf h⟩ hl r.signatureProviders r0 e 0 hf0
  refine ⟨r1, _, ?_, by simpa using hf1.congr (.bcast e1 (.precommit ⟨⟨r.num, e.prefixTree.blockIdOf h⟩,
    r1.signatureProviders⟩)), hn1, hk1⟩
  simp only [endPrevote, precommit, setState, hs, hb, ne_eq, not_true_eq_false, if_false]
  rw [h1, except_ok_bind]

/-! ## A supermajority decides the round -/

/-- Precommit messages of round `r` for block `b`, each signed by keys among `voters` that
have not precommitted in the round and are not the round's own keys, no key twice. -/
structure PrecommitsFor (r : RandpaRound) (b : BlockId) (voters : List PublicKey)
    (ms : List PrecommitMsg) : Prop where
  data : ∀ m ∈ ms, m.data = ⟨r.num, b⟩
  voted : ∀ m ∈ ms, ∀ k ∈ m.publicKeys, k ∈ voters
  fresh : ∀ m ∈ ms, ∀ k ∈ m.publicKeys, k ∉ r.precommitedKeys ∧ k ∉ r.signatureProviders
  nodup : (ms.flatMap NetworkMsg.publicKeys).Nodup

/-- Once the round has ended its prevote phase, without precommits but its own, the
precommits are of its best block and of keys new to it, whose prevotes the node holds. -/
theorem PrecommitsFor.valid {r r' : RandpaRound} {b : BlockId} {voters : List PublicKey}
    {ms : List PrecommitMsg} {t : PrefixChainTree} {h : Nat} (hpc : PrecommitsFor r b voters ms)
    (hn : r'.num = r.num) (hpk : ∀ k ∈ r'.precommitedKeys, k ∈ r.precommitedKeys ∨ k ∈ r.signatureProviders)
    (hv : ∀ k ∈ voters, (t.nodeAt h).hasConfirmation k = true) :
    (∀ m ∈ ms, m.data = ⟨r'.num, b⟩) ∧
      ∀ m ∈ ms, ∀ k ∈ m.publicKeys, k ∉ r'.precommitedKeys ∧ (t.nodeAt h).hasConfirmation k = true :=
  ⟨fun m hm => hn ▸ hpc.data m hm, fun m hm k hk =>
    ⟨fun hk' => (hpk k hk').elim (hpc.fresh m hm k hk).1 (hpc.fresh m hm k hk).2,
      hv k (hpc.voted m hm k hk)⟩⟩

end RandpaRound

open RandpaRound in
/-- A supermajority decides a round. Take a round in its prevote phase with no precommit, and
a node `h` of the tree whose block is above the last irreversible block. Prevotes of the round
landing on `h`, from more than two thirds of the keys active at `h`, none of which has
prevoted in the round, make it ready to precommit with `h` as its best node. The prevote phase
ends, the round precommits `h`'s block with its own keys, and precommits of that block by the
prevoters, which with the round's own keys are more than two thirds of the active keys, make
it done: `h`'s block is published and becomes the last irreversible block. -/
theorem supermajority_finalizes {r : RandpaRound} {e : Randpa} {h : Nat} {pvs : List PrevoteMsg}
    {pcs : List PrecommitMsg} (hs : r.state = .prevote) (hpre : r.proof.precommits = [])
    (hpv : PrevotesFor r e.prefixTree h pvs)
    (hq : (pvs.flatMap NetworkMsg.publicKeys).length > 2 * (e.prefixTree.nodeAt h).activeBpKeys.size / 3)
    (hpc : PrecommitsFor r (e.prefixTree.blockIdOf h) (pvs.flatMap NetworkMsg.publicKeys) pcs)
    (hq' : r.signatureProviders.length + (pcs.flatMap NetworkMsg.publicKeys).length >
      2 * (e.prefixTree.nodeAt h).activeBpKeys.size / 3)
    (hl : getBlockNum e.lib < getBlockNum (e.prefixTree.blockIdOf h)) :
    ∃ r1 e1 r2 e2 r3 e3, onPrevotes pvs r e = .ok (r1, e1) ∧ r1.state = .readyToPrecommit ∧
      r1.bestNode = some h ∧ r1.endPrevote e1 = .ok (r2, e2) ∧ onPrecommits pcs r2 e2 = .ok (r3, e3) ∧
      r3.state = .done ∧ e3.lib = e.prefixTree.blockIdOf h ∧
      published e3.outbox = published e.outbox ++ [e.prefixTree.blockIdOf h] := by
  obtain ⟨r1, e1, h1, hh1, hs1, hb1⟩ := onPrevotes_ready hs hpv hq
  have hb : e1.prefixTree.blockIdOf h = e.prefixTree.blockIdOf h := hh1.shape.blockIdOf_eq h
  have hl1 : getBlockNum e1.lib < getBlockNum (e1.prefixTree.blockIdOf h) := by
    rw [hh1.lib, hb]; exact hl
  obtain ⟨r2, e2, h2, hf2, hn2, hk2⟩ := endPrevote_finalizing hs1 hb1 (hh1.proof ▸ hpre) hl1
  -- the precommitters are new to the round, and their prevotes are held at `h`
  obtain ⟨hdata, hkeys⟩ := hpc.valid (hn2.trans hh1.num)
    (by rwa [← hh1.precommitedKeys, ← hh1.signatureProviders]) fun k hk => (hh1.held k).2 (.inr hk)
  obtain ⟨r3, e3, h3, hf3⟩ :=
    onPrecommits_finalizing hl1 pcs r2 e2 _ hf2 (hb ▸ hdata) hkeys hpc.nodup
  obtain ⟨hd, hlib, hpub⟩ := hf3.done (by rwa [hh1.signatureProviders, hh1.shape.activeBpKeys_eq])
  exact ⟨r1, e1, r2, e2, r3, e3, h1, hs1, hb1, h2, h3, hd, hlib.trans hb,
    by rw [hpub, hh1.published, hb]⟩

/-- The producer of key 1 on block 1, made by key 2 on the zero block, with keys 1 to 4
active at block 1. -/
def fourKeyProducer : Randpa :=
  { producerOne with
    prefixTree := (PrefixChainTree.single BlockId.zero).pushFresh 0 (chainBlock 1) 2
      ([1, 2, 3, 4].foldl KeySet.insert KeySet.empty) }

/-- Round 0 of the producer of key 1 in its prevote phase. Its primary, key 3, made no block of
the tree, so `prevote()` found no last node and prevoted nothing. -/
def fourKeyRound : RandpaRound := (RandpaRound.create 0 3 [1]).setState .prevote

/-- The prevote of key `k` in round 0 for block 1. -/
def blockOnePrevote (k : PublicKey) : PrevoteMsg := ⟨⟨0, BlockId.zero, [chainBlock 1]⟩, [k]⟩

/-- The precommit of key `k` in round 0 for block 1. -/
def blockOnePrecommit (k : PublicKey) : PrecommitMsg := ⟨⟨0, chainBlock 1⟩, [k]⟩

/-- Keys 2, 3 and 4 prevote block 1, and keys 2 and 3 precommit it with key 1: round 0
finalizes block 1. -/
theorem supermajority_finalizes_fourKeys :
    ∃ r1 e1 r2 e2 r3 e3,
      RandpaRound.onPrevotes ([2, 3, 4].map blockOnePrevote) fourKeyRound fourKeyProducer = .ok (r1, e1) ∧
      r1.state = .readyToPrecommit ∧ r1.bestNode = some 1 ∧ r1.endPrevote e1 = .ok (r2, e2) ∧
      RandpaRound.onPrecommits ([2, 3].map blockOnePrecommit) r2 e2 = .ok (r3, e3) ∧
      r3.state = .done ∧ e3.lib = chainBlock 1 ∧
      published e3.outbox = published fourKeyProducer.outbox ++ [chainBlock 1] :=
  supermajority_finalizes rfl rfl ⟨by decide, by decide, by decide, by decide, by decide⟩ (by decide)
    ⟨by decide, by decide, by decide, by decide⟩ (by decide) (by decide)

/-! ## Through the engine -/

theorem LruCache.contains_insert_of_ne {c : LruCache} {d x : NetMsgData} (hx : x.digest ≠ d.digest)
    (hc : c.contains x = false) : (c.insert d).contains x = false := by
  have hc' : x.digest ∉ c.entries := by simpa [LruCache.contains] using hc
  unfold LruCache.insert LruCache.contains
  split
  · simpa using hc'
  · split
    · simp [hx, hc']
    · simpa [hx] using fun h => hc' (List.mem_of_mem_dropLast h)

/-- Two prevotes share a digest only if they are one message. -/
theorem NetMsgData.digest_prevote_inj {a b : PrevoteMsg}
    (h : (NetMsgData.prevote a).digest = (NetMsgData.prevote b).digest) : a = b := by
  cases a; cases b
  simp_all [NetMsgData.digest]

/-- Two precommits share a digest only if they are one message. -/
theorem NetMsgData.digest_precommit_inj {a b : PrecommitMsg}
    (h : (NetMsgData.precommit a).digest = (NetMsgData.precommit b).digest) : a = b := by
  obtain ⟨⟨_, _⟩, _⟩ := a
  obtain ⟨⟨_, _⟩, _⟩ := b
  simp_all [NetMsgData.digest]

namespace Randpa

@[simp] theorem bcast_done (e : Randpa) (d : NetMsgData) : (e.bcast d).done = e.done := by
  unfold bcast; split <;> rfl

/-- No method of the round sets the engine's done flag. -/
theorem effectClosed_done : EffectClosed fun e e' : Randpa => e'.done = e.done where
  refl _ := rfl
  trans h1 h2 := h2.trans h1
  bcast := bcast_done
  tree _ _ := rfl
  gain _ _ := by simp [onProofGained, updateLib]

/-- `loop()` over two lists of messages handles the first, then the second. -/
theorem loop_append (e : Randpa) :
    ∀ ms ms' : List (Nat × RandpaMessage), e.loop (ms ++ ms') = e.loop ms >>= fun e' => e'.loop ms'
  | [], _ => rfl
  | (now, m) :: ms, ms' => by
    simp only [List.cons_append, loop]
    split
    · rename_i hd
      cases ms' with
      | nil => rfl
      | cons x ms' => simp [loop, hd, except_ok_bind]
    · cases e.processMsg now m with
      | error _ => rfl
      | ok e1 => simpa [except_ok_bind] using loop_append e1 ms ms'

/-- A round message that the cache does not hold, on an engine neither syncing nor frozen
whose round is `r`: the message is cached, perhaps broadcast, and handed to the round's
method, whose result becomes the engine, with its round. The engine keeps running, neither
syncing nor frozen, and caches nothing else. -/
theorem processRoundMsg_fresh {e : Randpa} {r : RandpaRound} {data : NetMsgData} {n : UInt32}
    {f : RandpaRound → Randpa → Except RandpaError (RandpaRound × Randpa)}
    (hframe : RandpaRound.HasEffect RoundFrame f)
    (hdone : RandpaRound.HasEffect (fun e e' : Randpa => e'.done = e.done) f)
    (hround : e.round = some r) (hs : (e.isSyncing || e.isFrozen) = false)
    (hc : e.selfMessages.contains data = false) :
    ∃ e0, e.SameView e0 ∧ ∀ {r' : RandpaRound} {e' : Randpa}, f r e0 = .ok (r', e') →
      e.processRoundMsg data n f = .ok { e' with round := some r' } ∧ e'.done = e.done ∧
      (e'.isSyncing || e'.isFrozen) = false ∧
      ∀ d, e.selfMessages.contains d = false → d.digest ≠ data.digest →
        e'.selfMessages.contains d = false := by
  have key : ∃ e0, e.SameView e0 ∧ e0.round = e.round ∧ e0.selfMessages = e.selfMessages.insert data ∧
      e0.isSyncing = e.isSyncing ∧ e0.isFrozen = e.isFrozen ∧ e0.done = e.done ∧
      e.processRoundMsg data n f = e0.callRound f := by
    unfold processRoundMsg
    rw [if_neg (by simp [hs]), if_neg (by simp [hc])]
    dsimp only
    refine ⟨_, ?_, ?_, ?_, ?_, ?_, ?_, rfl⟩ <;> split
    · exact (⟨rfl, rfl, rfl⟩ : e.SameView { e with selfMessages := e.selfMessages.insert data }).trans
        (.bcast _ data)
    · exact ⟨rfl, rfl, rfl⟩
    all_goals simp
  obtain ⟨e0, hv0, hr0, hc0, hs0, hf0, hd0, heq⟩ := key
  refine ⟨e0, hv0, fun h1 => ⟨heq.trans (callRound_of_ok (hr0.trans hround) h1),
    (hdone _ _ _ _ h1).trans hd0, ?_, fun d hd hdm => ?_⟩⟩
  · rw [(hframe _ _ _ _ h1).isSyncing, (hframe _ _ _ _ h1).isFrozen, hs0, hf0]; exact hs
  · rw [(hframe _ _ _ _ h1).selfMessages, hc0]; exact LruCache.contains_insert_of_ne hdm hd

open RandpaRound

variable {h : Nat} {now : Nat} {t : Nat}

/-- Prevote messages delivered in time through the queue, one after another, to an engine
neither syncing nor frozen whose round prevotes at `h` and whose cache holds none of them:
each is handled as the round's `on(prevote_msg)`, so every signed prevote is taken and held at
`h`, and only these messages are cached. -/
theorem loop_prevotes_at (ses : UInt32) (hnow : ¬((now : Int) - t * 1000000 > msgExpirationMs * 1000)) :
    ∀ (ms : List PrevoteMsg) (e : Randpa) (r : RandpaRound), e.round = some r → e.done = false →
      (e.isSyncing || e.isFrozen) = false → (∀ m ∈ ms, e.selfMessages.contains (.prevote m) = false) →
      ms.Nodup → PrevotesFor r e.prefixTree h ms → PrevotingAt h r →
      ∃ r' e', e.loop (ms.map fun m => (now, .net ⟨ses, .prevote m, t⟩)) = .ok e' ∧
        e'.round = some r' ∧ HeldAt h (ms.flatMap NetworkMsg.publicKeys) r e r' e' ∧ PrevotingAt h r' ∧
        (ms.flatMap NetworkMsg.publicKeys ≠ [] ∨ Settled h r e → Settled h r' e') ∧
        e'.done = false ∧ (e'.isSyncing || e'.isFrozen) = false ∧
        ∀ d, e.selfMessages.contains d = false → (∀ m ∈ ms, d.digest ≠ (NetMsgData.prevote m).digest) →
          e'.selfMessages.contains d = false
  | [], e, r, hround, hd, hs, _, _, _, hp =>
    ⟨r, e, rfl, hround, .refl r e, hp, fun hs => hs.resolve_left (by simp), hd, hs, fun _ hc _ => hc⟩
  | m :: ms, e, r, hround, hd, hs, hc, hnd, hv, hp => by
    have hm := List.mem_cons_self m ms
    obtain ⟨e0, hv0, hstep⟩ := processRoundMsg_fresh (n := m.data.roundNum)
      (onPrevote_closed effectClosed_roundFrame m) (onPrevote_closed effectClosed_done m) hround hs (hc m hm)
    obtain ⟨r1, e1, h1, hh1, hp1, hs1⟩ := onPrevote_at (hv0.tree ▸ hv : PrevotesFor r e0.prefixTree h _) hp
    obtain ⟨hproc, hd1, hsf1, hc1⟩ := hstep h1
    have hh1' : HeldAt h m.publicKeys r e r1 { e1 with round := some r1 } := hh1.congr hv0.symm ⟨rfl, rfl, rfl⟩
    have hs1' : m.publicKeys ≠ [] ∨ Settled h r e → Settled h r1 { e1 with round := some r1 } :=
      fun hs' => hs1 (hs'.imp id fun hs0 => by unfold Settled; rw [hv0.tree]; exact hs0)
    obtain ⟨r2, e2, h2, hround2, hh2, hp2, hs2, hd2, hsf2, hc2⟩ := loop_prevotes_at ses hnow ms
      { e1 with round := some r1 } r1 rfl (hd1.trans hd) hsf1
      (fun m' hm' => hc1 _ (hc m' (.tail m hm')) fun he =>
        (List.nodup_cons.1 hnd).1 (NetMsgData.digest_prevote_inj he ▸ hm'))
      (List.nodup_cons.1 hnd).2 (hv.tail hh1') hp1
    refine ⟨r2, e2, ?_, hround2, List.flatMap_cons m ms _ ▸ hh1'.trans hh2, hp2,
      List.flatMap_cons m ms _ ▸ settled_append hs1' hs2, hd2, hsf2,
      fun d hd' hdm => hc2 d (hc1 d hd' (hdm m hm)) fun m' hm' => hdm m' (.tail m hm')⟩
    simp only [List.map_cons, loop, hd, Bool.false_eq_true, if_false, processMsg, processNetMsg,
      if_neg hnow, hproc, except_ok_bind]
    exact h2

/-- Precommit messages of the round's best block delivered in time through the queue, one
after another, to an engine neither syncing nor frozen whose round finalizes at `h` and whose
cache holds none of them: the round counts every key until it is done. -/
theorem loop_precommits_finalizing {e0 : Randpa} (ses : UInt32)
    (hnow : ¬((now : Int) - t * 1000000 > msgExpirationMs * 1000))
    (hl : getBlockNum e0.lib < getBlockNum (e0.prefixTree.blockIdOf h)) :
    ∀ (ms : List PrecommitMsg) (e : Randpa) (r : RandpaRound) (n : Nat), e.round = some r →
      e.done = false → (e.isSyncing || e.isFrozen) = false →
      (∀ m ∈ ms, e.selfMessages.contains (.precommit m) = false) → ms.Nodup →
      Finalizing e0 h n r e → (∀ m ∈ ms, m.data = ⟨r.num, e0.prefixTree.blockIdOf h⟩) →
      (∀ m ∈ ms, ∀ k ∈ m.publicKeys, k ∉ r.precommitedKeys ∧
        (e0.prefixTree.nodeAt h).hasConfirmation k = true) →
      (ms.flatMap NetworkMsg.publicKeys).Nodup →
      ∃ r' e', e.loop (ms.map fun m => (now, .net ⟨ses, .precommit m, t⟩)) = .ok e' ∧
        Finalizing e0 h (n + (ms.flatMap NetworkMsg.publicKeys).length) r' e'
  | [], e, r, n, _, _, _, _, _, hf, _, _, _ => ⟨r, e, rfl, hf⟩
  | m :: ms, e, r, n, hround, hd, hs, hc, hnd, hf, hdata, hks, hknd => by
    have hm := List.mem_cons_self m ms
    have hknd' := List.nodup_append.1 (List.flatMap_cons m ms _ ▸ hknd)
    obtain ⟨e1, hv1, hstep⟩ := processRoundMsg_fresh (n := m.data.roundNum)
      (onPrecommit_closed effectClosed_roundFrame m) (onPrecommit_closed effectClosed_done m) hround hs
      (hc m hm)
    obtain ⟨r2, e2, h2, hf2, hn2, hk2⟩ := onPrecommit_finalizing hl (hf.congr hv1) (hdata m hm)
      (hks m hm) hknd'.1
    obtain ⟨hproc, hd2, hsf2, hc2⟩ := hstep h2
    obtain ⟨r3, e3, h3, hf3⟩ := loop_precommits_finalizing ses hnow hl ms { e2 with round := some r2 } r2 _
      rfl (hd2.trans hd) hsf2
      (fun m' hm' => hc2 _ (hc m' (.tail m hm')) fun he =>
        (List.nodup_cons.1 hnd).1 (NetMsgData.digest_precommit_inj he ▸ hm'))
      (List.nodup_cons.1 hnd).2 (hf2.congr ⟨rfl, rfl, rfl⟩) (fun m' hm' => hn2 ▸ hdata m' (.tail m hm'))
      (fun m' hm' k hk => ⟨fun hk' => (hk2 k hk').elim (hks m' (.tail m hm') k hk).1
        fun hkm => hknd'.2.2 hkm (List.mem_flatMap.2 ⟨m', hm', hk⟩), (hks m' (.tail m hm') k hk).2⟩)
      hknd'.2.1
    refine ⟨r3, e3, ?_, by simpa [Nat.add_assoc] using hf3⟩
    simp only [List.map_cons, loop, hd, Bool.false_eq_true, if_false, processMsg, processNetMsg,
      if_neg hnow, hproc, except_ok_bind]
    exact h3

/-- The round's block at the end of its prevote phase, to an engine whose round is ready to
precommit at `h` with no precommit yet: the block goes into the tree, the prevote phase ends,
and the round precommits with its own keys, finalizing at `h` over the grown tree. The engine
keeps running, neither syncing nor frozen, and its cache is as it was. -/
theorem onAcceptedBlock_finalizing {e : Randpa} {r : RandpaRound} {hp : Nat} {p b : BlockId}
    (now : Nat) (c : PublicKey) (a : KeySet) (hround : e.round = some r) (hst : r.state = .readyToPrecommit)
    (hbest : r.bestNode = some h) (hpre : r.proof.precommits = []) (hh : h < e.prefixTree.nodes.length)
    (hl : getBlockNum e.lib < getBlockNum (e.prefixTree.blockIdOf h))
    (hf : e.prefixTree.find p = some hp) (hb : b ∉ e.prefixTree.blockIds) (hnum : roundNum b = r.num)
    (hi : numInRound b = prevoteWidth) (hlag : ¬getBlockNum b - getBlockNum e.lib > maxFinalityLagBlocks) :
    ∃ r' e', e.processMsg now (.event (.onAcceptedBlock ⟨b, p, c, a, false⟩)) =
        .ok { e' with round := some r' } ∧
      Finalizing { e with prefixTree := e.prefixTree.pushFresh hp b c a, isSyncing := false, isFrozen := false }
        h r.signatureProviders.length r' e' ∧ r'.num = r.num ∧
      (∀ k ∈ r'.precommitedKeys, k ∈ r.precommitedKeys ∨ k ∈ r.signatureProviders) ∧
      e'.done = e.done ∧ (e'.isSyncing || e'.isFrozen) = false ∧ e'.selfMessages = e.selfMessages := by
  set eb : Randpa :=
    { e with prefixTree := e.prefixTree.pushFresh hp b c a, isSyncing := false, isFrozen := false }
  have hg : e.prefixTree.Grows eb.prefixTree := PrefixChainTree.grows_pushFresh
  obtain ⟨r', e', h1, hf1, hn1, hk1⟩ := endPrevote_finalizing (e := eb) hst hbest hpre
    ((hg.blockIdOf_eq hh).symm ▸ hl)
  have hfr := endPrevote_closed effectClosed_roundFrame _ _ _ _ h1
  refine ⟨r', e', ?_, hf1, hn1, hk1, endPrevote_closed effectClosed_done r eb r' e' h1, ?_, hfr.selfMessages⟩
  · rw [onAcceptedBlock_endPrevote now hround hf hb hnum hi hlag]
    exact callRound_of_ok hround h1
  · rw [hfr.isSyncing, hfr.isFrozen]; rfl

end Randpa


open RandpaRound in
/-- A supermajority finalizes through the engine's queue. Take an engine, neither stopped,
syncing nor frozen, whose round is in its prevote phase with no precommit, and a node `h` of
its tree whose block is above the last irreversible block. Through the queue come, in time
and each once, none of them cached yet: prevotes of the round landing on `h` from more than
two thirds of the keys active at `h`, none of which has prevoted in the round; the round's
block at the end of its prevote phase, new to the node, within the finality lag, on a block
of the tree; and precommits of `h`'s block by the prevoters, which with the round's own keys
are more than two thirds of the active keys. The engine handles them all, publishes `h`'s
block and makes it the last irreversible block. -/
theorem supermajority_finalizes_through_queue {e : Randpa} {r : RandpaRound} {h hp : Nat}
    {p b : BlockId} {c : PublicKey} {a : KeySet} {pvs : List PrevoteMsg} {pcs : List PrecommitMsg}
    {now : Nat} {ses : UInt32} {t : Nat} (hnow : ¬((now : Int) - t * 1000000 > msgExpirationMs * 1000))
    (hround : e.round = some r) (hs : r.state = .prevote) (hpre : r.proof.precommits = [])
    (hd : e.done = false) (hflags : (e.isSyncing || e.isFrozen) = false)
    (hpv : PrevotesFor r e.prefixTree h pvs)
    (hq : (pvs.flatMap NetworkMsg.publicKeys).length > 2 * (e.prefixTree.nodeAt h).activeBpKeys.size / 3)
    (hpc : PrecommitsFor r (e.prefixTree.blockIdOf h) (pvs.flatMap NetworkMsg.publicKeys) pcs)
    (hq' : r.signatureProviders.length + (pcs.flatMap NetworkMsg.publicKeys).length >
      2 * (e.prefixTree.nodeAt h).activeBpKeys.size / 3)
    (hl : getBlockNum e.lib < getBlockNum (e.prefixTree.blockIdOf h))
    (hc : ∀ m ∈ pvs, e.selfMessages.contains (.prevote m) = false)
    (hc' : ∀ m ∈ pcs, e.selfMessages.contains (.precommit m) = false) (hnd : pvs.Nodup)
    (hnd' : pcs.Nodup) (hf : e.prefixTree.find p = some hp) (hb : b ∉ e.prefixTree.blockIds)
    (hnum : roundNum b = r.num) (hi : numInRound b = prevoteWidth)
    (hlag : ¬getBlockNum b - getBlockNum e.lib > maxFinalityLagBlocks) :
    ∃ e', e.loop (pvs.map (fun m => (now, .net ⟨ses, .prevote m, t⟩)) ++
        (now, .event (.onAcceptedBlock ⟨b, p, c, a, false⟩)) ::
          pcs.map (fun m => (now, .net ⟨ses, .precommit m, t⟩))) = .ok e' ∧
      e'.lib = e.prefixTree.blockIdOf h ∧
      published e'.outbox = published e.outbox ++ [e.prefixTree.blockIdOf h] := by
  -- the prevotes make the round ready to precommit at `h`
  obtain ⟨r1, e1, h1, hround1, hh1, hp1, hset1, hd1, hs1, hc1⟩ :=
    Randpa.loop_prevotes_at ses hnow pvs e r hround hd hflags hc hnd hpv (.inl hs)
  obtain ⟨hst1, hb1⟩ := hh1.ready hpv hq hp1 hset1
  -- the block ends the prevote phase, and the round precommits with its own keys
  have hh : h < e1.prefixTree.nodes.length :=
    hh1.shape.length_eq ▸ hpv.lt fun h0 => by simp [h0] at hq
  have hg : e1.prefixTree.Grows (e1.prefixTree.pushFresh hp b c a) := PrefixChainTree.grows_pushFresh
  have hb' : (e1.prefixTree.pushFresh hp b c a).blockIdOf h = e.prefixTree.blockIdOf h :=
    (hg.blockIdOf_eq hh).trans (hh1.shape.blockIdOf_eq h)
  obtain ⟨r2, e2, hblock, hf2, hn2, hk2, hd2, hs2, hc2⟩ := Randpa.onAcceptedBlock_finalizing now c a hround1 hst1
    hb1 (hh1.proof ▸ hpre) hh (by rw [hh1.shape.blockIdOf_eq, hh1.lib]; exact hl)
    (by rw [hh1.shape.find_eq]; exact hf) (by rw [hh1.shape.blockIds_eq]; exact hb)
    (hnum.trans hh1.num.symm) hi (by rw [hh1.lib]; exact hlag)
  -- the precommits of the prevoters finalize the round
  obtain ⟨hdata, hkeys⟩ := hpc.valid (t := e1.prefixTree.pushFresh hp b c a) (hn2.trans hh1.num)
    (by rwa [← hh1.precommitedKeys, ← hh1.signatureProviders])
    fun k hk => by
      have hk1 := (hh1.held k).2 (.inr hk)
      simp only [PrefixNode.hasConfirmation, decide_eq_true_eq] at hk1 ⊢
      exact hg.keys_subset h hk1
  obtain ⟨r3, e3, h3, hf3⟩ := Randpa.loop_precommits_finalizing ses hnow
    (by show getBlockNum e1.lib < _; rw [hb']; exact hh1.lib ▸ hl) pcs
    { e2 with round := some r2 } r2 _ rfl (hd2.trans hd1) hs2
    (fun m hm => by rw [← hc2] at hc1; exact hc1 _ (hc' m hm) fun _ _ => nofun)
    hnd' (hf2.congr ⟨rfl, rfl, rfl⟩) (fun m hm => by rw [hdata m hm, hb']) hkeys hpc.nodup
  obtain ⟨-, hlib, hpub⟩ := hf3.done (by
    rw [(hg.activeBpKeys_eq hh).trans (hh1.shape.activeBpKeys_eq h), hh1.signatureProviders]
    exact hq')
  refine ⟨e3, ?_, hlib.trans hb', ?_⟩
  · rw [Randpa.loop_append, h1, except_ok_bind]
    simp only [Randpa.loop, hd1, Bool.false_eq_true, if_false, hblock, except_ok_bind]
    exact h3
  · rw [hpub, hb']
    exact congrArg (· ++ [e.prefixTree.blockIdOf h]) hh1.published


/-- A producer of key 1 whose round 0 is in its prevote phase. -/
def fourKeyEngine : Randpa := { fourKeyProducer with round := some fourKeyRound }

/-- Through the queue: keys 2, 3 and 4 prevote block 1, block 2 ends the prevote phase, and
keys 2 and 3 precommit block 1; the producer of key 1 finalizes block 1. -/
theorem supermajority_finalizes_through_queue_fourKeys :
    ∃ e', fourKeyEngine.loop
        (([2, 3, 4].map blockOnePrevote).map (fun m => (0, .net ⟨0, .prevote m, 0⟩)) ++
          (0, .event (.onAcceptedBlock ⟨chainBlock 2, chainBlock 1, 2, KeySet.empty, false⟩)) ::
            ([2, 3].map blockOnePrecommit).map (fun m => (0, .net ⟨0, .precommit m, 0⟩))) = .ok e' ∧
      e'.lib = chainBlock 1 ∧ published e'.outbox = published fourKeyEngine.outbox ++ [chainBlock 1] := by
  refine supermajority_finalizes_through_queue (h := 1) (r := fourKeyRound) ?_ ?_ ?_ ?_ ?_ ?_ ⟨?_, ?_, ?_, ?_, ?_⟩ ?_
    ⟨?_, ?_, ?_, ?_⟩ ?_ ?_ ?_ ?_ ?_ ?_
    (by decide : fourKeyEngine.prefixTree.find (chainBlock 1) = some 1) ?_ ?_ ?_ ?_
  all_goals first | rfl | decide

end randpa_finality
