-- What every run of the engine keeps. Each handler succeeds from a good engine, keeps it
-- good, and moves the last irreversible block only forward; so no `FC_ASSERT` of the
-- round ever fails, and the root of the tree is always the last irreversible block.
import Randpa.Engine
import Randpa.Steps

namespace randpa_finality

/-! ## The invariant -/

/-- The invariant of the engine: the root of the tree is the last irreversible block, and
the current round keeps `RoundOk`. -/
structure Good (e : Randpa) : Prop where
  libOk : LibOk e
  roundOk : ∀ r, e.round = some r → RoundOk r e.prefixTree

/-- A handler's result: it succeeded, with a good engine that moved forward from `e`. -/
def GoodStep (e : Randpa) (x : Except RandpaError Randpa) : Prop :=
  ∃ e', x = .ok e' ∧ Good e' ∧ LibForward e e'

theorem GoodStep.of_forward {e0 e : Randpa} {x : Except RandpaError Randpa}
    (h0 : LibForward e0 e) (h : GoodStep e x) : GoodStep e0 x :=
  let ⟨e', hx, hg, hf⟩ := h
  ⟨e', hx, hg, h0.trans hf⟩

theorem GoodStep.of_ok {e e' : Randpa} {x : Except RandpaError Randpa} (h : GoodStep e x)
    (hx : x = .ok e') : Good e' ∧ LibForward e e' := by
  obtain ⟨e'', he, hg, hf⟩ := h
  rw [hx] at he
  cases he
  exact ⟨hg, hf⟩

theorem Good.of_grows {e e' : Randpa} (hg : Good e) (hl : e'.lib = e.lib) (hr : e'.round = e.round)
    (ht : e.prefixTree.Grows e'.prefixTree) (hroot : e'.prefixTree.root = e.prefixTree.root) :
    Good e' := by
  refine ⟨?_, fun r h => roundOk_of_grows ht (hg.roundOk r (hr ▸ h))⟩
  unfold LibOk; rw [ht.rootId_eq hroot, hl]; exact hg.libOk

/-- A step that only talks: the tree, the last irreversible block and the round stay, and
nothing is published. -/
structure Quiet (e e' : Randpa) : Prop where
  prefixTree : e'.prefixTree = e.prefixTree
  lib : e'.lib = e.lib
  round : e'.round = e.round
  outbox : ∃ out, e'.outbox = e.outbox ++ out ∧ published out = []

namespace Quiet

variable {e e' e'' : Randpa}

theorem refl (e : Randpa) : Quiet e e := ⟨rfl, rfl, rfl, [], by simp, rfl⟩

theorem trans (h1 : Quiet e e') (h2 : Quiet e' e'') : Quiet e e'' := by
  obtain ⟨o1, h1o, h1p⟩ := h1.outbox
  obtain ⟨o2, h2o, h2p⟩ := h2.outbox
  exact ⟨h2.1.trans h1.1, h2.2.trans h1.2, h2.3.trans h1.3, o1 ++ o2,
    by rw [h2o, h1o, List.append_assoc], by simp [h1p, h2p]⟩

theorem good (h : Quiet e e') (hg : Good e) : Good e' :=
  hg.of_grows h.lib h.round (h.prefixTree ▸ .refl _) (by rw [h.prefixTree])

theorem goodStep (h : Quiet e e') (hg : Good e) : GoodStep e (.ok e') :=
  ⟨e', rfl, h.good hg, .of_frame h.lib h.outbox⟩

end Quiet

/-! ## The handlers that only talk -/

namespace Randpa

variable (e : Randpa)

theorem quiet_send (s : UInt32) (d : NetMsgData) : Quiet e (e.send s d) :=
  ⟨rfl, rfl, rfl, _, rfl, rfl⟩

theorem quiet_bcast (d : NetMsgData) : Quiet e (e.bcast d) :=
  ⟨by simp, by simp, by simp, e.bcast_outbox d⟩

theorem quiet_peers (p : KeyMap UInt32) : Quiet e { e with peers := p } := ⟨rfl, rfl, rfl, [], by simp, rfl⟩

theorem quiet_selfMessages (c : LruCache) : Quiet e { e with selfMessages := c } :=
  ⟨rfl, rfl, rfl, [], by simp, rfl⟩

/-- A fold of steps that only talk only talks. -/
theorem quiet_foldl {α : Type} (f : Randpa → α → Randpa) (hf : ∀ e a, Quiet e (f e a)) :
    ∀ (l : List α) (e : Randpa), Quiet e (l.foldl f e)
  | [], e => .refl e
  | a :: l, e => (hf e a).trans (quiet_foldl f hf l _)

theorem quiet_onFinalityNotice (s : UInt32) (m : FinalityNoticeMsg) :
    Quiet e (e.onFinalityNotice s m) := by
  unfold onFinalityNotice
  split
  · exact .refl e
  · exact e.quiet_send _ _

theorem quiet_onFinalityReqProof (s : UInt32) (m : FinalityReqProofMsg) :
    Quiet e (e.onFinalityReqProof s m) := by
  unfold onFinalityReqProof
  split
  · exact e.quiet_send _ _
  · exact .refl e

theorem quiet_onHandshake (s : UInt32) (m : HandshakeMsg) : Quiet e (e.onHandshake s m) :=
  quiet_foldl _ (fun e _ => (e.quiet_peers _).trans (quiet_send _ _ _)) _ e

theorem quiet_onHandshakeAns (s : UInt32) (m : HandshakeAnsMsg) : Quiet e (e.onHandshakeAns s m) :=
  quiet_foldl _ (fun e _ => e.quiet_peers _) _ e

/-! ## Proofs from the network -/

@[simp] theorem markDone_prefixTree (n : UInt32) : (e.markDone n).prefixTree = e.prefixTree := by
  unfold markDone; split <;> (try split) <;> rfl

@[simp] theorem markDone_lib (n : UInt32) : (e.markDone n).lib = e.lib := by
  unfold markDone; split <;> (try split) <;> rfl

@[simp] theorem markDone_outbox (n : UInt32) : (e.markDone n).outbox = e.outbox := by
  unfold markDone; split <;> (try split) <;> rfl

theorem good_markDone {e : Randpa} (hg : Good e) (n : UInt32) : Good (e.markDone n) := by
  unfold markDone
  split
  · split
    · refine ⟨hg.libOk, ?_⟩
      rintro _ ⟨⟩ (hs | hs) <;> simp [RandpaRound.setState] at hs
    · exact hg
  · exact hg

theorem good_onProofGained {e : Randpa} (hg : Good e) (p : ProofType) : Good (e.onProofGained p) :=
  hg.of_grows (by simp) (by simp) (by simpa using .refl _) (by simp)

/-- What `on(proof_msg)` can do: nothing, or gain a valid proof above the last proved block
and above the last irreversible block, after it marked a round of the proof's number
done. -/
theorem onProof_cases (m : ProofMsg) : e.onProof m = e ∨
    (e.validateProof m.data = true ∧ e.lastProovedBlockNum < getBlockNum m.data.bestBlock ∧
      getBlockNum e.lib < getBlockNum m.data.bestBlock ∧ (∀ r, e.round = some r → r.state ≠ .done) ∧
      e.onProof m = (e.markDone m.data.roundNum).onProofGained m.data) := by
  generalize hx : e.onProof m = x
  simp only [onProof] at hx
  split_ifs at hx with h1 h2 h3 h4 h5 <;> subst hx
  all_goals try exact .inl rfl
  refine .inr ⟨by simpa using h5, Nat.lt_of_not_le h2, Nat.lt_of_not_le h3, fun r hr hd => h4 ?_, rfl⟩
  simp [hr, hd]

theorem onProof_good {e : Randpa} (hg : Good e) (m : ProofMsg) : GoodStep e (.ok (e.onProof m)) := by
  rcases e.onProof_cases m with h | ⟨-, -, hl, -, h⟩
  · rw [h]; exact (Quiet.refl e).goodStep hg
  · refine ⟨_, rfl, h ▸ good_onProofGained (good_markDone hg _) _, ?_⟩
    rw [h]
    exact ((LibForward.refl e).congr_right (by simp) (by simp)).trans
      ((e.markDone _).libForward_onProofGained _ (by simpa using hl))

/-! ## Calls of the round -/

theorem callRound_good {e : Randpa} {f : RandpaRound → Randpa → Except RandpaError (RandpaRound × Randpa)}
    (hf : RoundSafe f) (hg : Good e) : GoodStep e (e.callRound f) := by
  unfold callRound
  split
  · exact (Quiet.refl e).goodStep hg
  · rename_i r hr
    obtain ⟨r', e', h, hr', ha⟩ := hf r e (hg.roundOk r hr)
    refine ⟨{ e' with round := some r' }, by rw [h, except_ok_bind], ⟨ha.libOk hg.libOk, ?_⟩,
      ha.forward.congr_right rfl rfl⟩
    rintro _ ⟨⟩
    exact hr'

theorem processRoundMsg_good {e : Randpa}
    {f : RandpaRound → Randpa → Except RandpaError (RandpaRound × Randpa)} (hf : RoundSafe f)
    (hg : Good e) (data : NetMsgData) (n : UInt32) : GoodStep e (e.processRoundMsg data n f) := by
  have key : ∀ e1, Quiet e e1 → GoodStep e (e1.callRound f) := fun e1 hq =>
    (callRound_good hf (hq.good hg)).of_forward (.of_frame hq.lib hq.outbox)
  unfold processRoundMsg
  split
  · exact (Quiet.refl e).goodStep hg
  split
  · exact (Quiet.refl e).goodStep hg
  apply key
  split
  · exact (e.quiet_selfMessages _).trans (quiet_bcast _ _)
  · exact e.quiet_selfMessages _

/-! ## Blocks from the host -/

theorem good_removeRound {e : Randpa} (hg : Good e) : Good e.removeRound :=
  ⟨(PrefixChainTree.sameShape_removeConfirmations _).rootId_eq.trans hg.libOk, fun _ h => nomatch h⟩

theorem libForward_removeRound : LibForward e e.removeRound :=
  .of_frame rfl ⟨[], (List.append_nil _).symm, rfl⟩

theorem newRound_good {e : Randpa} (hl : LibOk e) (num : UInt32) (primary : PublicKey)
    (active : KeySet) : GoodStep e (e.newRound num primary active) := by
  obtain ⟨r, e1, h, hr, ha⟩ :=
    RandpaRound.new_ok num primary (e.getActiveSignatureProviders active) e
  refine ⟨{ e1 with round := some r }, by rw [newRound, h, except_ok_bind], ⟨ha.libOk hl, ?_⟩,
    ha.forward.congr_right rfl rfl⟩
  rintro _ ⟨⟩
  exact hr

theorem startRound_good {e : Randpa} (hg : Good e) (ev : OnAcceptedBlockEvent) :
    GoodStep e (e.startRound ev) := by
  unfold startRound
  split
  · split
    · exact (newRound_good (good_removeRound hg).libOk _ _ _).of_forward e.libForward_removeRound
    · exact ⟨_, rfl, good_removeRound hg, e.libForward_removeRound⟩
  · exact (Quiet.refl e).goodStep hg

theorem scheduleRound_good {e : Randpa} (hg : Good e) (ev : OnAcceptedBlockEvent) :
    GoodStep e (e.scheduleRound ev) := by
  unfold scheduleRound
  split
  · exact (Quiet.refl e).goodStep hg
  · obtain ⟨e1, h1, hg1, hf1⟩ := startRound_good hg ev
    rw [h1, except_ok_bind]
    split
    · exact (callRound_good RandpaRound.endPrevote_ok hg1).of_forward hf1
    · exact ⟨e1, rfl, hg1, hf1⟩

theorem onAcceptedBlock_good {e : Randpa} (hg : Good e) (ev : OnAcceptedBlockEvent) :
    GoodStep e (e.onAcceptedBlock ev) := by
  unfold onAcceptedBlock
  split
  · exact (Quiet.refl e).goodStep hg
  · rename_i tree hi
    obtain ⟨hgr, hroot⟩ := PrefixChainTree.grows_insert hi
    refine GoodStep.of_forward ?_ (scheduleRound_good ?_ ev)
    · exact (LibForward.refl e).congr_right rfl rfl
    · exact hg.of_grows rfl rfl hgr hroot

theorem onIrreversible_good {e : Randpa} (hg : Good e) (id : BlockId) :
    GoodStep e (.ok (e.onIrreversible id)) := by
  unfold onIrreversible
  split
  · exact (Quiet.refl e).goodStep hg
  · rename_i hlt
    refine ⟨_, rfl, ⟨e.libOk_updateLib id, fun r hr =>
      roundOk_of_grows (e.grows_updateLib id) (hg.roundOk r hr)⟩, .inr ?_, [], by simp, by simp⟩
    rw [← hg.libOk]
    exact Nat.lt_of_not_le hlt

/-! ## One message -/

theorem processNetMsg_good {e : Randpa} (hg : Good e) (now : Nat) (msg : RandpaNetMsg) :
    GoodStep e (e.processNetMsg now msg) := by
  unfold processNetMsg
  split
  · exact (Quiet.refl e).goodStep hg
  · split
    · exact processRoundMsg_good (RandpaRound.onPrevote_ok _) hg _ _
    · exact processRoundMsg_good (RandpaRound.onPrecommit_ok _) hg _ _
    · exact (e.quiet_onFinalityNotice _ _).goodStep hg
    · exact (e.quiet_onFinalityReqProof _ _).goodStep hg
    · exact onProof_good hg _
    · exact (e.quiet_onHandshake _ _).goodStep hg
    · exact (e.quiet_onHandshakeAns _ _).goodStep hg

/-- Every message succeeds on a good engine, keeps it good, and moves the last irreversible
block only forward. -/
theorem processMsg_good {e : Randpa} (hg : Good e) (now : Nat) :
    ∀ m, GoodStep e (e.processMsg now m)
  | .net msg => processNetMsg_good hg now msg
  | .event (.onAcceptedBlock ev) => onAcceptedBlock_good hg ev
  | .event (.onIrreversible id) => onIrreversible_good hg id
  | .event (.onNewPeer s) => (e.quiet_send s _).goodStep hg

end Randpa

end randpa_finality
