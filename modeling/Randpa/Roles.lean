-- The node's configuration over a run. No handler changes the node's role, its keys or its
-- providers, and a node that is not a block producer never makes a round: a full node never
-- prevotes or precommits, whatever it receives.
import Randpa.Filters

namespace randpa_finality

/-! ## What a step keeps of the configuration -/

/-- A step keeps the node's role, keys and providers; and a full node that holds no round
holds none after it. -/
structure KeepsConfig (e e' : Randpa) : Prop where
  isBlockProducer : e'.isBlockProducer = e.isBlockProducer
  publicKeys : e'.publicKeys = e.publicKeys
  signatureProviders : e'.signatureProviders = e.signatureProviders
  sigProvsByKey : e'.sigProvsByKey = e.sigProvsByKey
  noRound : e.isBlockProducer = false → e.round = none → e'.round = none

namespace KeepsConfig

variable {e e' e'' : Randpa}

theorem refl (e : Randpa) : KeepsConfig e e := ⟨rfl, rfl, rfl, rfl, fun _ h => h⟩

theorem trans (h1 : KeepsConfig e e') (h2 : KeepsConfig e' e'') : KeepsConfig e e'' :=
  ⟨h2.isBlockProducer.trans h1.isBlockProducer, h2.publicKeys.trans h1.publicKeys,
    h2.signatureProviders.trans h1.signatureProviders, h2.sigProvsByKey.trans h1.sigProvsByKey,
    fun hb hr => h2.noRound (h1.isBlockProducer ▸ hb) (h1.noRound hb hr)⟩

/-- A step that leaves the configuration and the round alone. -/
theorem of_eq (hb : e'.isBlockProducer = e.isBlockProducer) (hk : e'.publicKeys = e.publicKeys)
    (hs : e'.signatureProviders = e.signatureProviders) (hp : e'.sigProvsByKey = e.sigProvsByKey)
    (hr : e'.round = e.round) : KeepsConfig e e' :=
  ⟨hb, hk, hs, hp, fun _ h => hr ▸ h⟩

/-- A step that replaces a round, and so starts from one. -/
theorem of_round {r : RandpaRound} (hr : e.round = some r) (hb : e'.isBlockProducer = e.isBlockProducer)
    (hk : e'.publicKeys = e.publicKeys) (hs : e'.signatureProviders = e.signatureProviders)
    (hp : e'.sigProvsByKey = e.sigProvsByKey) : KeepsConfig e e' :=
  ⟨hb, hk, hs, hp, fun _ h => absurd (hr.symm.trans h) nofun⟩

theorem bcast (e : Randpa) (d : NetMsgData) : KeepsConfig e (e.bcast d) := by
  unfold Randpa.bcast
  split
  · exact .refl e
  · exact of_eq rfl rfl rfl rfl rfl

theorem onProofGained (e : Randpa) (p : ProofType) : KeepsConfig e (e.onProofGained p) := by
  simp only [Randpa.onProofGained]
  refine .trans ?_ (bcast _ _)
  exact of_eq rfl rfl rfl rfl rfl

theorem foldl {α : Type} (f : Randpa → α → Randpa) (hf : ∀ e a, KeepsConfig e (f e a)) :
    ∀ (l : List α) (e : Randpa), KeepsConfig e (l.foldl f e)
  | [], e => .refl e
  | a :: l, e => (hf e a).trans (foldl f hf l _)

end KeepsConfig

theorem effectClosed_keepsConfig : EffectClosed KeepsConfig where
  refl := .refl
  trans := .trans
  bcast := .bcast
  tree _ _ := .of_eq rfl rfl rfl rfl rfl
  gain e p := (KeepsConfig.onProofGained e p).trans (.of_eq rfl rfl rfl rfl rfl)

/-! ## The handlers -/

namespace Randpa

variable {e e' : Randpa}

theorem callRound_keepsConfig {f : RandpaRound → Randpa → Except RandpaError (RandpaRound × Randpa)}
    (hf : RandpaRound.HasEffect KeepsConfig f) (h : e.callRound f = .ok e') : KeepsConfig e e' := by
  unfold callRound at h
  split at h
  · cases h; exact .refl e
  · rename_i r hr
    obtain ⟨⟨r1, e1⟩, h1, h2⟩ := except_bind_eq_ok.1 h
    cases h2
    have hk := hf _ _ _ _ h1
    exact .of_round hr hk.isBlockProducer hk.publicKeys hk.signatureProviders hk.sigProvsByKey

theorem processRoundMsg_keepsConfig {f : RandpaRound → Randpa → Except RandpaError (RandpaRound × Randpa)}
    (hf : RandpaRound.HasEffect KeepsConfig f) {data : NetMsgData} {n : UInt32}
    (h : e.processRoundMsg data n f = .ok e') : KeepsConfig e e' := by
  unfold processRoundMsg at h
  split at h
  · cases h; exact .refl e
  split at h
  · cases h; exact .refl e
  refine KeepsConfig.trans ?_ (callRound_keepsConfig hf h)
  split
  · refine .trans ?_ (.bcast _ _)
    exact .of_eq rfl rfl rfl rfl rfl
  · exact .of_eq rfl rfl rfl rfl rfl

theorem markDone_keepsConfig (n : UInt32) : KeepsConfig e (e.markDone n) := by
  unfold markDone
  split
  · split
    · exact .of_round ‹_› rfl rfl rfl rfl
    · exact .refl e
  · exact .refl e

theorem onProof_keepsConfig (m : ProofMsg) : KeepsConfig e (e.onProof m) := by
  rcases e.onProof_cases m with h | ⟨-, -, -, -, h⟩
  · rw [h]; exact .refl e
  · rw [h]; exact (markDone_keepsConfig _).trans (.onProofGained _ _)

/-- `is_active_bp` holds only of a block producer. -/
theorem isBlockProducer_of_isActiveBp {id : BlockId} (h : e.isActiveBp id = true) :
    e.isBlockProducer = true := by
  unfold isActiveBp at h
  split at h
  · cases h
  · simpa using ‹¬(!e.isBlockProducer) = true›

theorem newRound_keepsConfig {num : UInt32} {primary : PublicKey} {active : KeySet}
    (hbp : e.isBlockProducer = true) (hn : e.newRound num primary active = .ok e') :
    KeepsConfig e e' := by
  obtain ⟨⟨r, e1⟩, h1, h2⟩ := except_bind_eq_ok.1 hn
  cases h2
  have hk := RandpaRound.prevote_closed effectClosed_keepsConfig _ _ _ _ h1
  exact ⟨hk.isBlockProducer, hk.publicKeys, hk.signatureProviders, hk.sigProvsByKey,
    fun hb => absurd (hbp.symm.trans hb) nofun⟩

theorem startRound_keepsConfig {ev : OnAcceptedBlockEvent} (hs : e.startRound ev = .ok e') :
    KeepsConfig e e' := by
  have hr : KeepsConfig e e.removeRound := ⟨rfl, rfl, rfl, rfl, fun _ _ => rfl⟩
  unfold startRound at hs
  split at hs
  · split at hs
    · exact hr.trans (newRound_keepsConfig (isBlockProducer_of_isActiveBp ‹_›) hs)
    · cases hs; exact hr
  · cases hs; exact .refl e

theorem scheduleRound_keepsConfig {ev : OnAcceptedBlockEvent} (hs : e.scheduleRound ev = .ok e') :
    KeepsConfig e e' := by
  unfold scheduleRound at hs
  split at hs
  · cases hs; exact .refl e
  obtain ⟨e1, h1, h2⟩ := except_bind_eq_ok.1 hs
  refine (startRound_keepsConfig h1).trans ?_
  split at h2
  · exact callRound_keepsConfig (RandpaRound.endPrevote_closed effectClosed_keepsConfig) h2
  · cases h2; exact .refl _

theorem onAcceptedBlock_keepsConfig {ev : OnAcceptedBlockEvent} (ha : e.onAcceptedBlock ev = .ok e') :
    KeepsConfig e e' := by
  unfold onAcceptedBlock at ha
  split at ha
  · cases ha; exact .refl e
  · refine KeepsConfig.trans ?_ (scheduleRound_keepsConfig ha)
    exact .of_eq rfl rfl rfl rfl rfl

theorem processNetMsg_keepsConfig {now : Nat} {msg : RandpaNetMsg}
    (hp : e.processNetMsg now msg = .ok e') : KeepsConfig e e' := by
  unfold processNetMsg at hp
  split at hp
  · cases hp; exact .refl e
  split at hp
  · exact processRoundMsg_keepsConfig (RandpaRound.onPrevote_closed effectClosed_keepsConfig _) hp
  · exact processRoundMsg_keepsConfig (RandpaRound.onPrecommit_closed effectClosed_keepsConfig _) hp
  all_goals cases hp
  · unfold onFinalityNotice
    split
    · exact .refl e
    · exact .of_eq rfl rfl rfl rfl rfl
  · unfold onFinalityReqProof
    split
    · exact .of_eq rfl rfl rfl rfl rfl
    · exact .refl e
  · exact onProof_keepsConfig _
  · unfold onHandshake
    refine KeepsConfig.foldl _ ?_ _ e
    exact fun _ _ => .of_eq rfl rfl rfl rfl rfl
  · unfold onHandshakeAns
    refine KeepsConfig.foldl _ ?_ _ e
    exact fun _ _ => .of_eq rfl rfl rfl rfl rfl

theorem processMsg_keepsConfig {now : Nat} {m : RandpaMessage} (hp : e.processMsg now m = .ok e') :
    KeepsConfig e e' := by
  match m, hp with
  | .net _, hp => exact processNetMsg_keepsConfig hp
  | .event (.onAcceptedBlock _), hp => exact onAcceptedBlock_keepsConfig hp
  | .event (.onIrreversible _), hp =>
    cases hp
    unfold onIrreversible updateLib
    split
    · exact .refl e
    · exact .of_eq rfl rfl rfl rfl rfl
  | .event (.onNewPeer _), hp => cases hp; exact .of_eq rfl rfl rfl rfl rfl

end Randpa

/-! ## Over a run -/

/-- In every reachable state of a full node there is no round: a full node never prevotes
or precommits, and publishes a block only from a proof it receives. -/
theorem full_node_never_votes {e : Randpa} (h : Reachable e) (hbp : e.isBlockProducer = false) :
    e.round = none := by
  induction h with
  | start hc hs => obtain ⟨_, _, _, _, rfl⟩ := hc.start_eq hs; rfl
  | step _ hs ih =>
    have hk := Randpa.processMsg_keepsConfig hs
    exact hk.noRound (hk.isBlockProducer ▸ hbp) (ih (hk.isBlockProducer ▸ hbp))

/-- The full node takes blocks 1 and 2 with its own key 0 active beside key 1, and key 1's
prevote for them: only the node's role keeps it from making a round. -/
def fullNodeVotesRun : List (Nat × RandpaMessage) :=
  [(0, acceptedBlock (chainBlock 1) BlockId.zero 1 [0, 1]),
    (0, .net ⟨0, .prevote ⟨⟨0, BlockId.zero, [chainBlock 1]⟩, [1]⟩, 0⟩),
    (0, acceptedBlock (chainBlock 2) (chainBlock 1) 1 [0, 1])]

/-- The full node after `fullNodeVotesRun`. -/
def fullNodeVotesState : Randpa := (fullNode.loop fullNodeVotesRun).toOption.getD fullNode

/-- The full node took both blocks, at which its key 0 is active, and the prevote, and holds
no round. -/
theorem full_node_never_votes_fullNodeVotesState :
    fullNodeVotesState.prefixTree.nodes.length = 3 ∧
      (fullNodeVotesState.prefixTree.nodeAt 1).activeBpKeys.keys = [0, 1] ∧ fullNodeVotesState.round = none :=
  ⟨by decide, by decide, full_node_never_votes (reachable_loop_getD reachable_fullNode _) (by decide)⟩

end randpa_finality
