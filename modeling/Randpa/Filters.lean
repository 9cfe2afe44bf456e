-- What process_net_msg drops. A syncing or frozen node only answers; a method of the round
-- only broadcasts, changes the tree and gains proofs, so a prevote, precommit or proof
-- delivered twice is handled once; and each dedup cache keeps at most its capacity of digests.
import Randpa.ProofRecord
import Randpa.Quorum

namespace randpa_finality

/-! ## What a method of the round can do to the engine -/

/-- A relation between engines that holds of no change and of each effect a method of the
round has on the engine: a broadcast, a new tree, and `finish_round` gaining a proof and
moving the last irreversible block; and that composes. -/
structure EffectClosed (R : Randpa → Randpa → Prop) : Prop where
  refl : ∀ e, R e e
  trans : ∀ {e1 e2 e3}, R e1 e2 → R e2 e3 → R e1 e3
  bcast : ∀ e d, R e (e.bcast d)
  tree : ∀ (e : Randpa) t, R e { e with prefixTree := t }
  gain : ∀ e p, R e ((e.onProofGained p).updateLib p.bestBlock)

namespace RandpaRound

variable {R : Randpa → Randpa → Prop} (hR : EffectClosed R)
include hR

theorem finishRound_closed {r r' : RandpaRound} {e e' : Randpa} (h : e.finishRound r = .ok (r', e')) :
    R e e' := by
  unfold Randpa.finishRound at h
  split at h
  · cases h; exact hR.refl e
  · obtain ⟨_, -, h⟩ := except_bind_eq_ok.1 h
    split at h <;> cases h
    · exact hR.gain e _
    · exact hR.refl e

theorem addPrevote_closed {msg : PrevoteMsg} {r r' : RandpaRound} {e e' : Randpa}
    (h : r.addPrevote msg e = .ok (r', e')) : R e e' := by
  unfold addPrevote at h
  split at h
  · split at h
    · cases h
    · dsimp only at h
      split at h <;> cases h <;> exact hR.tree e _
  · cases h

theorem addPrecommit_closed {msg : PrecommitMsg} {r r' : RandpaRound} {e e' : Randpa}
    (h : r.addPrecommit msg e = .ok (r', e')) : R e e' := by
  unfold addPrecommit at h
  split at h
  · dsimp only at h
    split at h
    · cases h; exact hR.refl e
    · obtain ⟨_, -, h⟩ := except_bind_eq_ok.1 h
      split at h
      · exact finishRound_closed hR h
      · cases h; exact hR.refl e
  · cases h

theorem onPrevoteLoop_closed (msg : PrevoteMsg) :
    ∀ (ks : List PublicKey) {r r' : RandpaRound} {e e' : Randpa},
      onPrevoteLoop msg ks r e = .ok (r', e') → R e e'
  | [], _, _, _, _, hl => by cases hl; exact hR.refl _
  | k :: ks, r, r', e, e', hl => by
    unfold onPrevoteLoop at hl
    split at hl
    · obtain ⟨⟨r1, e1⟩, h1, h2⟩ := except_bind_eq_ok.1 hl
      exact hR.trans (addPrevote_closed hR h1) (onPrevoteLoop_closed msg ks h2)
    · exact onPrevoteLoop_closed msg ks hl

theorem prevoteLoop_closed (data : PrevoteType) :
    ∀ (ps : List PublicKey) {r r' : RandpaRound} {e e' : Randpa},
      prevoteLoop data ps r e = .ok (r', e') → R e e'
  | [], _, _, _, _, hl => by cases hl; exact hR.refl _
  | p :: ps, r, r', e, e', hl => by
    obtain ⟨⟨r1, e1⟩, h1, h2⟩ := except_bind_eq_ok.1 hl
    exact hR.trans (addPrevote_closed hR h1) (prevoteLoop_closed data ps h2)

theorem onPrecommitLoop_closed (msg : PrecommitMsg) :
    ∀ (ks : List PublicKey) {r r' : RandpaRound} {e e' : Randpa},
      onPrecommitLoop msg ks r e = .ok (r', e') → R e e'
  | [], _, _, _, _, hl => by cases hl; exact hR.refl _
  | k :: ks, r, r', e, e', hl => by
    obtain ⟨_, -, hl⟩ := except_bind_eq_ok.1 hl
    split at hl
    · obtain ⟨⟨r1, e1⟩, h1, h2⟩ := except_bind_eq_ok.1 hl
      exact hR.trans (addPrecommit_closed hR h1) (onPrecommitLoop_closed msg ks h2)
    · exact onPrecommitLoop_closed msg ks hl

theorem precommitLoop_closed (data : PrecommitType) :
    ∀ (ps : List PublicKey) {r r' : RandpaRound} {e e' : Randpa},
      precommitLoop data ps r e = .ok (r', e') → R e e'
  | [], _, _, _, _, hl => by cases hl; exact hR.refl _
  | p :: ps, r, r', e, e', hl => by
    obtain ⟨⟨r1, e1⟩, h1, h2⟩ := except_bind_eq_ok.1 hl
    exact hR.trans (addPrecommit_closed hR h1) (precommitLoop_closed data ps h2)

/-- Every successful call of the method relates the engine before and after by `R`. -/
def HasEffect (R : Randpa → Randpa → Prop)
    (f : RandpaRound → Randpa → Except RandpaError (RandpaRound × Randpa)) : Prop :=
  ∀ r e r' e', f r e = .ok (r', e') → R e e'

theorem onPrevote_closed (msg : PrevoteMsg) : HasEffect R (onPrevote msg) := fun r e r' e' h => by
  unfold onPrevote at h
  split at h
  · cases h; exact hR.refl e
  · exact onPrevoteLoop_closed hR msg _ h

theorem onPrecommit_closed (msg : PrecommitMsg) : HasEffect R (onPrecommit msg) :=
  fun r e r' e' h => by
    unfold onPrecommit at h
    split at h
    · cases h; exact hR.refl e
    · exact onPrecommitLoop_closed hR msg _ h

theorem precommit_closed : HasEffect R precommit := fun r e r' e' h => by
  unfold precommit at h
  split at h
  · cases h
  · dsimp only at h
    split at h
    · cases h
    · obtain ⟨⟨r1, e1⟩, h1, h2⟩ := except_bind_eq_ok.1 h
      cases h2
      exact hR.trans (precommitLoop_closed hR _ _ h1) (hR.bcast _ _)

theorem endPrevote_closed : HasEffect R endPrevote := fun r e r' e' h => by
  unfold endPrevote at h
  split at h
  · cases h; exact hR.refl e
  · dsimp only at h
    split at h
    · cases h
    · exact precommit_closed hR _ _ _ _ h

theorem prevote_closed : HasEffect R prevote := fun r e r' e' h => by
  unfold prevote at h
  split at h
  · cases h
  · dsimp only at h
    split at h
    · cases h; exact hR.refl e
    · obtain ⟨⟨r1, e1⟩, h1, h2⟩ := except_bind_eq_ok.1 h
      cases h2
      exact hR.trans (prevoteLoop_closed hR _ _ h1) (hR.bcast _ _)

end RandpaRound

/-! ## The dedup caches -/

namespace LruCache

/-- The cache holds at most `_messages_cache_size` digests, each once. -/
def Ok (c : LruCache) : Prop :=
  c.capacity = messagesCacheSize ∧ c.entries.length ≤ c.capacity ∧ c.entries.Nodup

theorem contains_insert (c : LruCache) (d : NetMsgData) : (c.insert d).contains d = true := by
  unfold insert contains
  split <;> simp [*]

theorem Ok.insert {c : LruCache} (hc : c.Ok) (d : NetMsgData) : (c.insert d).Ok := by
  obtain ⟨hcap, hlen, hnd⟩ := hc
  have hpos : 0 < c.capacity := hcap ▸ by decide
  unfold LruCache.insert
  split
  · exact ⟨hcap, hlen, hnd⟩
  · rename_i hd
    refine ⟨hcap, ?_, ?_⟩ <;> split
    · simp only [List.length_cons]; omega
    · simp only [List.length_cons, List.length_dropLast]; omega
    · exact List.nodup_cons.2 ⟨hd, hnd⟩
    · exact List.nodup_cons.2 ⟨fun h => hd (List.dropLast_subset _ h),
        hnd.sublist (List.dropLast_sublist _)⟩

end LruCache

namespace Randpa

variable (e : Randpa)

@[simp] theorem bcast_selfMessages (d : NetMsgData) : (e.bcast d).selfMessages = e.selfMessages := by
  unfold bcast; split <;> rfl

@[simp] theorem bcast_isSyncing (d : NetMsgData) : (e.bcast d).isSyncing = e.isSyncing := by
  unfold bcast; split <;> rfl

@[simp] theorem bcast_isFrozen (d : NetMsgData) : (e.bcast d).isFrozen = e.isFrozen := by
  unfold bcast; split <;> rfl

theorem peerMessages_bcast {e : Randpa} (hc : e.peerMessages.Ok) (d : NetMsgData) :
    (e.bcast d).peerMessages.Ok := by
  unfold bcast; split
  · exact hc
  · exact hc.insert d

end Randpa

/-! ## What a method of the round leaves alone -/

/-- What a method of the round leaves of the engine: the cache of the messages handed to the
round, the sync and freeze flags, and a broadcast cache within its bounds. -/
structure RoundFrame (e e' : Randpa) : Prop where
  selfMessages : e'.selfMessages = e.selfMessages
  isSyncing : e'.isSyncing = e.isSyncing
  isFrozen : e'.isFrozen = e.isFrozen
  peerMessages : e.peerMessages.Ok → e'.peerMessages.Ok

theorem effectClosed_roundFrame : EffectClosed RoundFrame where
  refl _ := ⟨rfl, rfl, rfl, id⟩
  trans h1 h2 := ⟨h2.selfMessages.trans h1.selfMessages, h2.isSyncing.trans h1.isSyncing,
    h2.isFrozen.trans h1.isFrozen, h2.peerMessages ∘ h1.peerMessages⟩
  bcast e d := ⟨by simp, by simp, by simp, fun hc => Randpa.peerMessages_bcast hc d⟩
  tree _ _ := ⟨rfl, rfl, rfl, id⟩
  gain e p := ⟨by simp [Randpa.onProofGained, Randpa.updateLib],
    by simp [Randpa.onProofGained, Randpa.updateLib], by simp [Randpa.onProofGained, Randpa.updateLib],
    fun hc => by
      simp only [Randpa.onProofGained, Randpa.updateLib]
      exact Randpa.peerMessages_bcast (by exact hc) _⟩

theorem Randpa.callRound_frame {f : RandpaRound → Randpa → Except RandpaError (RandpaRound × Randpa)}
    (hf : RandpaRound.HasEffect RoundFrame f) {e e' : Randpa} (h : e.callRound f = .ok e') :
    RoundFrame e e' := by
  unfold callRound at h
  split at h
  · cases h; exact effectClosed_roundFrame.refl e
  · obtain ⟨⟨r1, e1⟩, h1, h2⟩ := except_bind_eq_ok.1 h
    cases h2
    have hr := hf _ _ _ _ h1
    exact ⟨hr.selfMessages, hr.isSyncing, hr.isFrozen, hr.peerMessages⟩

/-! ## A vote or a proof delivered twice -/

/-- A prevote or a precommit handed to the round is cached, so the same message again is
dropped: `process_round_msg` a second time leaves the engine as the first call left it. -/
theorem Randpa.processRoundMsg_again {f : RandpaRound → Randpa → Except RandpaError (RandpaRound × Randpa)}
    (hf : RandpaRound.HasEffect RoundFrame f) {e e' : Randpa} {data : NetMsgData} {n : UInt32}
    (h : e.processRoundMsg data n f = .ok e') : e'.processRoundMsg data n f = .ok e' := by
  unfold processRoundMsg at h
  split at h
  · cases h; unfold processRoundMsg; rw [if_pos ‹_›]
  split at h
  · cases h; unfold processRoundMsg; simp [*]
  rename_i hs _
  have hr := callRound_frame hf h
  have hc : e'.selfMessages.contains data = true := by
    rw [hr.selfMessages]
    split <;> simp [LruCache.contains_insert]
  have hs' : (e'.isSyncing || e'.isFrozen) = false := by
    rw [hr.isSyncing, hr.isFrozen]
    split <;> simpa using hs
  unfold processRoundMsg
  simp [hs', hc]

/-- A proof gained is not gained again: the last proved block is its best block. -/
theorem Randpa.onProof_again (e : Randpa) (m : ProofMsg) : (e.onProof m).onProof m = e.onProof m := by
  rcases e.onProof_cases m with h | ⟨-, -, -, -, h⟩
  · rw [h, h]
  · rw [h]
    unfold onProof
    split
    · rfl
    · rw [if_pos (by simp [onProofGained])]

/-- A prevote, precommit or proof message that the engine has handled, handled again right
after, leaves the engine as the first handling left it: a duplicated vote or proof is never
counted twice, whatever the state. -/
theorem duplicate_vote_or_proof_ignored {e e' : Randpa} {now : Nat} {msg : RandpaNetMsg}
    (hm : (∃ m, msg.data = .prevote m) ∨ (∃ m, msg.data = .precommit m) ∨ ∃ m, msg.data = .proof m)
    (h : e.processMsg now (.net msg) = .ok e') : e'.processMsg now (.net msg) = .ok e' := by
  simp only [Randpa.processMsg, Randpa.processNetMsg] at h ⊢
  split at h
  · cases h; rw [if_pos ‹_›]
  rename_i hx
  rw [if_neg hx]
  rcases hm with ⟨m, hd⟩ | ⟨m, hd⟩ | ⟨m, hd⟩ <;> simp only [hd] at h ⊢
  · exact Randpa.processRoundMsg_again (RandpaRound.onPrevote_closed effectClosed_roundFrame m) h
  · exact Randpa.processRoundMsg_again (RandpaRound.onPrecommit_closed effectClosed_roundFrame m) h
  · cases h; rw [Randpa.onProof_again]

/-- Key 2's precommit for block 2 in round 1, from session 0. -/
def precommitTwo : RandpaNetMsg := ⟨0, .precommit ⟨⟨1, chainBlock 2⟩, [2]⟩, 0⟩

/-- After `quorumRun` the round takes key 2's precommit once; delivered again, it changes
nothing. -/
theorem duplicate_precommit_ignored :
    ∃ e', quorumState.processMsg 0 (.net precommitTwo) = .ok e' ∧
      e'.round.map (·.proof.precommits.length) = some 1 ∧
      e'.processMsg 0 (.net precommitTwo) = .ok e' := by
  have hrun : (quorumState.processMsg 0 (.net precommitTwo)).toOption.map
      (·.round.map (·.proof.precommits.length)) = some (some 1) := by decide
  cases h : quorumState.processMsg 0 (.net precommitTwo) with
  | error => rw [h] at hrun; cases hrun
  | ok e' =>
    rw [h] at hrun
    exact ⟨e', rfl, Option.some.inj hrun, duplicate_vote_or_proof_ignored (.inr (.inl ⟨_, rfl⟩)) h⟩

end randpa_finality
