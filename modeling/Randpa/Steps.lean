-- What one call of the engine's helpers and of the round's methods can do. Each
-- method of the round succeeds from a round that keeps `RoundOk`, keeps it, and
-- moves the engine by `Advance`: the tree only grows, the last irreversible block
-- only moves up and stays the root, and every block it publishes is above the
-- last irreversible block it started from.
import Randpa.Round
import Randpa.TreeLaws

namespace randpa_finality

theorem except_bind_eq_ok {ε α β : Type} {x : Except ε α} {f : α → Except ε β} {b : β} :
    x >>= f = .ok b ↔ ∃ a, x = .ok a ∧ f a = .ok b := by
  cases x <;> simp [bind, Except.bind]

theorem except_ok_bind {ε α β : Type} (a : α) (f : α → Except ε β) : (Except.ok a >>= f) = f a :=
  rfl

/-! ## The invariants -/

/-- The root of the tree is the last irreversible block. -/
def LibOk (e : Randpa) : Prop := e.prefixTree.rootId = e.lib

/-- A round past the prevote threshold has its best node, a node of the store whose
prevotes, at it and below it, pass the threshold. -/
def RoundOk (r : RandpaRound) (t : PrefixChainTree) : Prop :=
  r.state = .readyToPrecommit ∨ r.state = .precommit →
    ∃ h, r.bestNode = some h ∧ h < t.nodes.length ∧ RandpaRound.isPrevoteThresholdReached t h = true

/-- The blocks among some outputs. -/
def published (out : List RandpaOutput) : List BlockId := out.filterMap RandpaOutput.finalityOf

@[simp] theorem published_append (a b : List RandpaOutput) :
    published (a ++ b) = published a ++ published b := List.filterMap_append _ _ _

@[simp] theorem published_nil : published [] = [] := rfl

@[simp] theorem published_send (s : UInt32) (d : NetMsgData) : published [.send s d] = [] := rfl

@[simp] theorem published_finality (b : BlockId) : published [.finality b] = [b] := rfl

/-- What a step does to the last irreversible block and to the finality channel: the block
only moves up, and every block published is above the one the step started from. -/
structure LibForward (e e' : Randpa) : Prop where
  lib : e'.lib = e.lib ∨ getBlockNum e.lib < getBlockNum e'.lib
  outbox : ∃ out, e'.outbox = e.outbox ++ out ∧
    ∀ b ∈ published out, getBlockNum e.lib < getBlockNum b

namespace LibForward

variable {e e' e'' : Randpa}

theorem refl (e : Randpa) : LibForward e e := ⟨.inl rfl, [], by simp, by simp⟩

theorem lib_le (h : LibForward e e') : (getBlockNum e.lib).toNat ≤ (getBlockNum e'.lib).toNat := by
  rcases h.lib with h | h
  · rw [h]
  · exact Nat.le_of_lt h

theorem trans (h1 : LibForward e e') (h2 : LibForward e' e'') : LibForward e e'' := by
  refine ⟨?_, ?_⟩
  · rcases h2.lib with h | h
    · exact h ▸ h1.lib
    · exact .inr (Nat.lt_of_le_of_lt h1.lib_le h)
  · obtain ⟨o1, h1o, h1p⟩ := h1.outbox
    obtain ⟨o2, h2o, h2p⟩ := h2.outbox
    refine ⟨o1 ++ o2, by rw [h2o, h1o, List.append_assoc], fun b hb => ?_⟩
    rw [published_append, List.mem_append] at hb
    exact hb.elim (h1p b) fun hb => Nat.lt_of_le_of_lt h1.lib_le (h2p b hb)

/-- A step that leaves the last irreversible block alone and publishes nothing. -/
theorem of_frame (hl : e'.lib = e.lib) (ho : ∃ out, e'.outbox = e.outbox ++ out ∧ published out = []) :
    LibForward e e' := by
  obtain ⟨out, hout, hp⟩ := ho
  exact ⟨.inl hl, out, hout, by simp [hp]⟩

theorem congr_right (h : LibForward e e') (hl : e''.lib = e'.lib) (ho : e''.outbox = e'.outbox) :
    LibForward e e'' := by
  obtain ⟨out, hout, hp⟩ := h.outbox
  exact ⟨hl ▸ h.lib, out, ho ▸ hout, hp⟩

end LibForward

/-- What a call of the round may do to the engine: the tree grows, the root stays the last
irreversible block, which only moves up, and the blocks published are above it. -/
structure Advance (e e' : Randpa) : Prop where
  grows : e.prefixTree.Grows e'.prefixTree
  libOk : LibOk e → LibOk e'
  forward : LibForward e e'

namespace Advance

variable {e e' e'' : Randpa}

theorem refl (e : Randpa) : Advance e e := ⟨.refl _, id, .refl e⟩

theorem trans (h1 : Advance e e') (h2 : Advance e' e'') : Advance e e'' :=
  ⟨h1.grows.trans h2.grows, h2.libOk ∘ h1.libOk, h1.forward.trans h2.forward⟩

/-- A step that leaves the tree and the last irreversible block alone and publishes
nothing. -/
theorem of_frame (ht : e'.prefixTree = e.prefixTree) (hl : e'.lib = e.lib)
    (ho : ∃ out, e'.outbox = e.outbox ++ out ∧ published out = []) : Advance e e' := by
  refine ⟨ht ▸ .refl _, fun h => ?_, .of_frame hl ho⟩
  unfold LibOk at *; rw [ht, hl]; exact h

end Advance

theorem roundOk_of_grows {r : RandpaRound} {t t' : PrefixChainTree} (hg : t.Grows t')
    (hr : RoundOk r t) : RoundOk r t' := by
  intro hs
  obtain ⟨h, hb, hh, hth⟩ := hr hs
  refine ⟨h, hb, lt_of_lt_of_le hh hg.length_le, ?_⟩
  simp only [RandpaRound.isPrevoteThresholdReached, decide_eq_true_eq] at hth ⊢
  rw [hg.activeBpKeys_eq hh]
  exact lt_of_lt_of_le hth (hg.confirmationNumber_le hh)

/-! ## The engine's helpers -/

namespace Randpa

variable (e : Randpa)

@[simp] theorem bcast_prefixTree (d : NetMsgData) : (e.bcast d).prefixTree = e.prefixTree := by
  unfold bcast; split <;> rfl

@[simp] theorem bcast_lib (d : NetMsgData) : (e.bcast d).lib = e.lib := by
  unfold bcast; split <;> rfl

@[simp] theorem bcast_round (d : NetMsgData) : (e.bcast d).round = e.round := by
  unfold bcast; split <;> rfl

@[simp] theorem bcast_lastProovedBlockNum (d : NetMsgData) :
    (e.bcast d).lastProovedBlockNum = e.lastProovedBlockNum := by
  unfold bcast; split <;> rfl

/-- A broadcast only sends. -/
theorem bcast_outbox (d : NetMsgData) :
    ∃ out, (e.bcast d).outbox = e.outbox ++ out ∧ published out = [] := by
  unfold bcast
  split
  · exact ⟨[], by simp⟩
  · refine ⟨e.peers.values.map (RandpaOutput.send · d), rfl, ?_⟩
    simp only [published, List.filterMap_map]
    exact List.filterMap_eq_nil_iff.2 fun _ _ => rfl

theorem advance_bcast (d : NetMsgData) : Advance e (e.bcast d) :=
  .of_frame (by simp) (by simp) (e.bcast_outbox d)

@[simp] theorem onProofGained_prefixTree (p : ProofType) :
    (e.onProofGained p).prefixTree = e.prefixTree := by simp [onProofGained]

@[simp] theorem onProofGained_lib (p : ProofType) : (e.onProofGained p).lib = e.lib := by
  simp [onProofGained]

@[simp] theorem onProofGained_round (p : ProofType) : (e.onProofGained p).round = e.round := by
  simp [onProofGained]

/-- A gained proof publishes its best block, and otherwise only sends. -/
theorem onProofGained_outbox (p : ProofType) : ∃ out,
    (e.onProofGained p).outbox = e.outbox ++ ([.finality p.bestBlock] ++ out) ∧ published out = [] := by
  obtain ⟨out, ho, hp⟩ := bcast_outbox { e with
    lastProofs := (p :: e.lastProofs).take proofsCacheSize,
    lastProovedBlockNum := getBlockNum p.bestBlock,
    outbox := e.outbox ++ [RandpaOutput.finality p.bestBlock] }
    (.finalityNotice ⟨⟨p.roundNum, p.bestBlock⟩, e.signatureProviders⟩)
  exact ⟨out, by simp only [onProofGained, ho, List.append_assoc], hp⟩

@[simp] theorem updateLib_lib (id : BlockId) : (e.updateLib id).lib = id := rfl

@[simp] theorem updateLib_outbox (id : BlockId) : (e.updateLib id).outbox = e.outbox := rfl

@[simp] theorem updateLib_round (id : BlockId) : (e.updateLib id).round = e.round := rfl

theorem libOk_updateLib (id : BlockId) : LibOk (e.updateLib id) := by
  unfold LibOk updateLib
  split
  · rename_i h hf
    exact (PrefixChainTree.find_spec hf).1
  · simp [PrefixChainTree.rootId, PrefixChainTree.setFreshRoot, PrefixChainTree.blockIdOf,
      PrefixChainTree.nodeAt, PrefixChainTree.push, List.getD_eq_getElem?_getD]

theorem grows_updateLib (id : BlockId) : e.prefixTree.Grows (e.updateLib id).prefixTree := by
  unfold updateLib
  split
  · exact PrefixChainTree.grows_setRoot _ _
  · exact PrefixChainTree.grows_setFreshRoot _ _

/-- A proof gained above the last irreversible block publishes a block above it. -/
theorem libForward_onProofGained (p : ProofType) (hp : getBlockNum e.lib < getBlockNum p.bestBlock) :
    LibForward e (e.onProofGained p) := by
  obtain ⟨out, ho, hpub⟩ := e.onProofGained_outbox p
  refine ⟨.inl (by simp), _, ho, fun b hb => ?_⟩
  simp only [published_append, published_finality, hpub, List.append_nil,
    List.mem_singleton] at hb
  exact hb ▸ hp

/-- A proof gained above the last irreversible block, which then becomes the last
irreversible block: the path of `finish_round`. -/
theorem advance_finish (p : ProofType) (hp : getBlockNum e.lib < getBlockNum p.bestBlock) :
    Advance e ((e.onProofGained p).updateLib p.bestBlock) := by
  refine ⟨?_, fun _ => libOk_updateLib _ _, (e.libForward_onProofGained p hp).trans ?_⟩
  · simpa using grows_updateLib (e.onProofGained p) p.bestBlock
  · exact ⟨.inr (by simpa using hp), [], by simp, by simp⟩

end Randpa

/-! ## The round's methods -/

theorem roundOk_congr {r r' : RandpaRound} {t : PrefixChainTree} (hs : r'.state = r.state)
    (hb : r'.bestNode = r.bestNode) (hr : RoundOk r t) : RoundOk r' t := by
  unfold RoundOk; rw [hs, hb]; exact hr

/-- A round in the precommit phase: past the prevote threshold, with its best node. -/
def PrecommitPhase (r : RandpaRound) : Prop :=
  r.bestNode.isSome ∧ (r.state = .readyToPrecommit ∨ r.state = .precommit ∨ r.state = .done)

/-- A method of the round that, from a round keeping `RoundOk`, succeeds, keeps it and
moves the engine by `Advance`. -/
def RoundSafe (f : RandpaRound → Randpa → Except RandpaError (RandpaRound × Randpa)) : Prop :=
  ∀ r e, RoundOk r e.prefixTree →
    ∃ r' e', f r e = .ok (r', e') ∧ RoundOk r' e'.prefixTree ∧ Advance e e'

namespace RandpaRound

theorem findLastNode_eq (t : PrefixChainTree) (base : BlockId) (blocks : List BlockId) :
    findLastNode t base blocks = t.confirmationTarget ⟨base, blocks⟩ := by
  unfold findLastNode PrefixChainTree.confirmationTarget
  cases List.find? (fun b => (t.find b).isSome) blocks.reverse <;> rfl

/-- A prevote that lands adds it, and moves the round to `ready_to_precommit` when the
node it lands on passes the threshold. -/
theorem addPrevote_ok {r : RandpaRound} {e : Randpa} {data : PrevoteType} (k : PublicKey) {h : Nat}
    (ht : e.prefixTree.confirmationTarget ⟨data.baseBlock, data.blocks⟩ = some h)
    (hr : RoundOk r e.prefixTree) :
    ∃ r' e', r.addPrevote ⟨data, [k]⟩ e = .ok (r', e') ∧ RoundOk r' e'.prefixTree ∧
      Advance e e' ∧ e.prefixTree.SameShape e'.prefixTree := by
  have hac := PrefixChainTree.addConfirmations_of_target ht k ⟨data, [k]⟩
  have hg := e.prefixTree.grows_addConfirmations ⟨data.baseBlock, data.blocks⟩ k ⟨data, [k]⟩
  have hs := e.prefixTree.sameShape_addConfirmations ⟨data.baseBlock, data.blocks⟩ k ⟨data, [k]⟩
  rw [hac] at hg hs
  have hadv : Advance e { e with prefixTree := e.prefixTree.modifyConf h (·.emplace k ⟨data, [k]⟩) } :=
    ⟨hg, fun hl => by unfold LibOk at *; rw [hs.rootId_eq]; exact hl, .of_frame rfl ⟨[], by simp, rfl⟩⟩
  simp only [addPrevote, NetworkMsg.publicKeys, hac]
  split
  · rename_i hth
    rw [Bool.and_eq_true] at hth
    refine ⟨_, _, rfl, fun _ => ⟨h, rfl, ?_, hth.2⟩, hadv, hs⟩
    exact hs.length_eq ▸ PrefixChainTree.inTree_lt (PrefixChainTree.confirmationTarget_spec ht)
  · exact ⟨_, _, rfl, roundOk_of_grows hg (roundOk_congr rfl rfl hr), hadv, hs⟩

/-- The loop of `on(prevote_msg)` never fails. -/
theorem onPrevoteLoop_ok (msg : PrevoteMsg) :
    ∀ (ks : List PublicKey) (r : RandpaRound) (e : Randpa), RoundOk r e.prefixTree →
      ∃ r' e', onPrevoteLoop msg ks r e = .ok (r', e') ∧ RoundOk r' e'.prefixTree ∧ Advance e e'
  | [], r, e, hr => ⟨r, e, rfl, hr, .refl e⟩
  | k :: ks, r, e, hr => by
    unfold onPrevoteLoop
    split
    · rename_i hv
      simp only [validatePrevote, Bool.and_eq_true] at hv
      have hsome := hv.2
      rw [findLastNode_eq] at hsome
      split at hsome
      · cases hsome
      · rename_i h ht
        obtain ⟨r1, e1, h1, hr1, ha1, -⟩ := addPrevote_ok k ht hr
        obtain ⟨r2, e2, h2, hr2, ha2⟩ := onPrevoteLoop_ok msg ks r1 e1 hr1
        exact ⟨r2, e2, by rw [h1, except_ok_bind]; exact h2, hr2, ha1.trans ha2⟩
    · exact onPrevoteLoop_ok msg ks r e hr

/-- `finish_round` called back by a done round returns the round as it is. -/
theorem finishRound_done (e : Randpa) (r : RandpaRound) (hd : r.state = .done) :
    ∃ e', e.finishRound r = .ok (r, e') ∧ Advance e e' := by
  have hf : r.finish = (true, r) := by simp [finish, hd]
  have hp : r.getProof = .ok r.proof := by simp [getProof, hd]
  simp only [Randpa.finishRound, hf, hp, except_ok_bind]
  split
  · exact ⟨_, rfl, e.advance_finish _ ‹_›⟩
  · exact ⟨e, rfl, .refl e⟩

/-- A precommit of one key is added; when the precommits pass the threshold the round is
done and `finish_round` runs. -/
theorem addPrecommit_ok {r : RandpaRound} {e : Randpa} (data : PrecommitType) (k : PublicKey)
    (hp : PrecommitPhase r) (hr : RoundOk r e.prefixTree) :
    ∃ r' e', r.addPrecommit ⟨data, [k]⟩ e = .ok (r', e') ∧ PrecommitPhase r' ∧
      RoundOk r' e'.prefixTree ∧ Advance e e' := by
  simp only [addPrecommit, NetworkMsg.publicKeys]
  split
  · exact ⟨_, e, rfl, hp, roundOk_congr rfl rfl hr, .refl e⟩
  · simp only [isPrecommitThresholdReached]
    split
    · rename_i hn; simp [PrecommitPhase, hn] at hp
    · rw [except_ok_bind]
      split
      · obtain ⟨e', he, ha⟩ := finishRound_done e (setState _ .done) rfl
        refine ⟨_, e', he, ⟨by simpa [setState] using hp.1, .inr (.inr rfl)⟩, ?_, ha⟩
        intro hs; simp [setState] at hs
      · exact ⟨_, e, rfl, hp, roundOk_congr rfl rfl hr, .refl e⟩

theorem validatePrecommit_ok {r : RandpaRound} (hb : r.bestNode.isSome) (t : PrefixChainTree)
    (msg : PrecommitMsg) (k : PublicKey) : ∃ b, r.validatePrecommit t msg k = .ok b := by
  obtain ⟨h, hh⟩ := Option.isSome_iff_exists.1 hb
  unfold validatePrecommit
  split
  · exact ⟨_, rfl⟩
  · split
    · exact ⟨_, rfl⟩
    · simp [hh]

/-- The loop of `on(precommit_msg)` never fails in the precommit phase. -/
theorem onPrecommitLoop_ok (msg : PrecommitMsg) :
    ∀ (ks : List PublicKey) (r : RandpaRound) (e : Randpa), PrecommitPhase r →
      RoundOk r e.prefixTree → ∃ r' e', onPrecommitLoop msg ks r e = .ok (r', e') ∧
        PrecommitPhase r' ∧ RoundOk r' e'.prefixTree ∧ Advance e e'
  | [], r, e, hp, hr => ⟨r, e, rfl, hp, hr, .refl e⟩
  | k :: ks, r, e, hp, hr => by
    obtain ⟨b, hv⟩ := validatePrecommit_ok hp.1 e.prefixTree msg k
    simp only [onPrecommitLoop, hv, except_ok_bind]
    cases b
    · exact onPrecommitLoop_ok msg ks r e hp hr
    · obtain ⟨r1, e1, h1, hp1, hr1, ha1⟩ := addPrecommit_ok msg.data k hp hr
      obtain ⟨r2, e2, h2, hp2, hr2, ha2⟩ := onPrecommitLoop_ok msg ks r1 e1 hp1 hr1
      exact ⟨r2, e2, by simp only [if_true, h1, except_ok_bind, h2], hp2, hr2, ha1.trans ha2⟩

/-- The loop of `precommit()` never fails in the precommit phase. -/
theorem precommitLoop_ok (data : PrecommitType) :
    ∀ (ps : List PublicKey) (r : RandpaRound) (e : Randpa), PrecommitPhase r →
      RoundOk r e.prefixTree → ∃ r' e', precommitLoop data ps r e = .ok (r', e') ∧
        PrecommitPhase r' ∧ RoundOk r' e'.prefixTree ∧ Advance e e'
  | [], r, e, hp, hr => ⟨r, e, rfl, hp, hr, .refl e⟩
  | p :: ps, r, e, hp, hr => by
    obtain ⟨r1, e1, h1, hp1, hr1, ha1⟩ := addPrecommit_ok data p hp hr
    obtain ⟨r2, e2, h2, hp2, hr2, ha2⟩ := precommitLoop_ok data ps r1 e1 hp1 hr1
    exact ⟨r2, e2, by simp only [precommitLoop, h1, except_ok_bind, h2], hp2, hr2, ha1.trans ha2⟩

/-- The loop of `prevote()` never fails when the prevote lands. -/
theorem prevoteLoop_ok (data : PrevoteType) :
    ∀ (ps : List PublicKey) (r : RandpaRound) (e : Randpa),
      (e.prefixTree.confirmationTarget ⟨data.baseBlock, data.blocks⟩).isSome →
      RoundOk r e.prefixTree → ∃ r' e', prevoteLoop data ps r e = .ok (r', e') ∧
        RoundOk r' e'.prefixTree ∧ Advance e e'
  | [], r, e, _, hr => ⟨r, e, rfl, hr, .refl e⟩
  | p :: ps, r, e, ht, hr => by
    obtain ⟨h, hh⟩ := Option.isSome_iff_exists.1 ht
    obtain ⟨r1, e1, h1, hr1, ha1, hs1⟩ := addPrevote_ok p hh hr
    obtain ⟨r2, e2, h2, hr2, ha2⟩ :=
      prevoteLoop_ok data ps r1 e1 (by rw [hs1.confirmationTarget_eq]; exact ht) hr1
    exact ⟨r2, e2, by simp only [prevoteLoop, h1, except_ok_bind, h2], hr2, ha1.trans ha2⟩

theorem onPrevote_ok (msg : PrevoteMsg) : RoundSafe (onPrevote msg) := fun r e hr => by
  unfold onPrevote
  split
  · exact ⟨r, e, rfl, hr, .refl e⟩
  · exact onPrevoteLoop_ok msg _ r e hr

theorem onPrecommit_ok (msg : PrecommitMsg) : RoundSafe (onPrecommit msg) := fun r e hr => by
  unfold onPrecommit
  split
  · exact ⟨r, e, rfl, hr, .refl e⟩
  · rename_i hs
    have hst : r.state = .readyToPrecommit ∨ r.state = .precommit := by
      simp only [Bool.and_eq_true, decide_eq_true_eq, not_and_or, not_not] at hs
      exact hs.symm
    obtain ⟨h, hb, -⟩ := hr hst
    obtain ⟨r', e', h1, -, hr', ha⟩ := onPrecommitLoop_ok msg _ r e
      ⟨by simp [hb], hst.elim .inl (.inr ∘ .inl)⟩ hr
    exact ⟨r', e', h1, hr', ha⟩

theorem precommit_ok {r : RandpaRound} {e : Randpa} (hs : r.state = .readyToPrecommit)
    (hr : RoundOk r e.prefixTree) :
    ∃ r' e', r.precommit e = .ok (r', e') ∧ RoundOk r' e'.prefixTree ∧ Advance e e' := by
  obtain ⟨h, hb, hlt, hth⟩ := hr (.inl hs)
  have hb' : (r.setState .precommit).bestNode = some h := hb
  simp only [precommit, hs, ne_eq, not_true_eq_false, if_false, hb']
  obtain ⟨r1, e1, h1, -, hr1, ha1⟩ :=
    precommitLoop_ok ⟨(r.setState .precommit).num, e.prefixTree.blockIdOf h⟩
      (r.setState .precommit).signatureProviders (r.setState .precommit) e
      ⟨by simp [hb'], .inr (.inl rfl)⟩ (fun _ => ⟨h, hb', hlt, hth⟩)
  exact ⟨_, _, by rw [h1, except_ok_bind], by simpa using hr1, ha1.trans (e1.advance_bcast _)⟩

theorem endPrevote_ok : RoundSafe endPrevote := fun r e hr => by
  unfold endPrevote
  split
  · exact ⟨_, e, rfl, fun hs => by simp [setState] at hs, .refl e⟩
  · rename_i hs
    have hs' := not_not.1 hs
    split
    · rename_i hn
      obtain ⟨h, hb, -⟩ := hr (.inl hs')
      simp [hb] at hn
    · exact precommit_ok hs' (roundOk_congr rfl rfl hr)

theorem prevote_ok {r : RandpaRound} {e : Randpa} (hs : r.state = .init) :
    ∃ r' e', r.prevote e = .ok (r', e') ∧ RoundOk r' e'.prefixTree ∧ Advance e e' := by
  have hr : RoundOk (r.setState .prevote) e.prefixTree := fun hs => by simp [setState] at hs
  simp only [prevote, hs, ne_eq, not_true_eq_false, if_false]
  split
  · exact ⟨_, e, rfl, hr, .refl e⟩
  · rename_i h _
    let c := e.prefixTree.getBranch (e.prefixTree.blockIdOf h)
    obtain ⟨r1, e1, h1, hr1, ha1⟩ :=
      prevoteLoop_ok ⟨(r.setState .prevote).num, c.baseBlock, c.blocks⟩
        (r.setState .prevote).signatureProviders (r.setState .prevote) e
        (e.prefixTree.confirmationTarget_getBranch _) hr
    exact ⟨_, _, by rw [h1, except_ok_bind], by simpa using hr1, ha1.trans (e1.advance_bcast _)⟩

theorem new_ok (num : UInt32) (primary : PublicKey) (providers : List PublicKey) (e : Randpa) :
    ∃ r' e', RandpaRound.new num primary providers e = .ok (r', e') ∧ RoundOk r' e'.prefixTree ∧
      Advance e e' :=
  prevote_ok rfl

end RandpaRound

end randpa_finality
