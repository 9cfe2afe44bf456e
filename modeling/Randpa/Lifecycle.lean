-- The life of a round along any run: the edges its state takes, and the numbers of the
-- rounds the engine makes. `end_prevote` fails every state but `ready_to_precommit`,
-- `done` included; a round made while another is current has a larger number.
import Mathlib.Logic.Relation
import Randpa.Reachable

namespace randpa_finality

/-! ## The edges of a round's state -/

/-- The edges a round's state takes: `prevote()` leaves `init`; a prevote that crosses the
threshold moves `prevote` to `ready_to_precommit`; `end_prevote` moves that to `precommit`
and fails every other state; a precommit that crosses the threshold, or a valid proof of
the round, makes any state but `done` done. -/
inductive StateEdge : StateType → StateType → Prop
  | prevote : StateEdge .init .prevote
  | readyToPrecommit : StateEdge .prevote .readyToPrecommit
  | precommit : StateEdge .readyToPrecommit .precommit
  | done {s : StateType} : s ≠ .done → StateEdge s .done
  | fail {s : StateType} : s ≠ .readyToPrecommit → StateEdge s .fail

/-- A round that is done or failed is only ever done or failed afterwards. -/
theorem ended_of_path {s t : StateType} (hp : Relation.ReflTransGen StateEdge s t)
    (hs : s = .done ∨ s = .fail) : t = .done ∨ t = .fail := by
  induction hp with
  | refl => exact hs
  | tail _ he ih =>
    cases he with
    | done _ => exact .inl rfl
    | fail _ => exact .inr rfl
    | _ => simp at ih

/-- The round `r'` is the round `r` after its state moved along the edges. -/
structure Moves (r r' : RandpaRound) : Prop where
  num : r'.num = r.num
  path : Relation.ReflTransGen StateEdge r.state r'.state

namespace Moves

variable {r r' r'' : RandpaRound}

theorem refl (r : RandpaRound) : Moves r r := ⟨rfl, .refl⟩

theorem trans (h1 : Moves r r') (h2 : Moves r' r'') : Moves r r'' :=
  ⟨h2.num.trans h1.num, h1.path.trans h2.path⟩

theorem edge (hn : r'.num = r.num) (he : StateEdge r.state r'.state) : Moves r r' := ⟨hn, .single he⟩

theorem of_eq (hn : r'.num = r.num) (hs : r'.state = r.state) : Moves r r' := ⟨hn, hs ▸ .refl⟩

theorem congr_left {r0 : RandpaRound} (h : Moves r0 r') (hn : r0.num = r.num)
    (hs : r0.state = r.state) : Moves r r' :=
  ⟨h.num.trans hn, hs ▸ h.path⟩

end Moves

/-! ## The round's methods -/

namespace RandpaRound

theorem addPrevote_moves {msg : PrevoteMsg} {r r' : RandpaRound} {e e' : Randpa}
    (hs : r.state = .prevote ∨ r.state = .readyToPrecommit) (h : r.addPrevote msg e = .ok (r', e')) :
    Moves r r' ∧ (r'.state = .prevote ∨ r'.state = .readyToPrecommit) := by
  dsimp only [addPrevote] at h
  split at h
  · split at h
    · cases h
    · split at h
      · rename_i hc
        cases h
        simp only [ne_eq, Bool.and_eq_true, decide_eq_true_eq] at hc
        refine ⟨.edge rfl ?_, .inr rfl⟩
        rcases hs with hs | hs
        · rw [hs]; exact .readyToPrecommit
        · exact absurd hs hc.1
      · cases h
        exact ⟨.of_eq rfl rfl, hs⟩
  · cases h

theorem onPrevoteLoop_moves (msg : PrevoteMsg) :
    ∀ (ks : List PublicKey) {r r' : RandpaRound} {e e' : Randpa},
      r.state = .prevote ∨ r.state = .readyToPrecommit → onPrevoteLoop msg ks r e = .ok (r', e') →
        Moves r r' ∧ (r'.state = .prevote ∨ r'.state = .readyToPrecommit)
  | [], _, _, _, _, hs, h => by cases h; exact ⟨.refl _, hs⟩
  | k :: ks, _, _, _, _, hs, h => by
    unfold onPrevoteLoop at h
    split at h
    · obtain ⟨⟨r1, e1⟩, h1, h2⟩ := except_bind_eq_ok.1 h
      obtain ⟨hm1, hs1⟩ := addPrevote_moves hs h1
      obtain ⟨hm2, hs2⟩ := onPrevoteLoop_moves msg ks hs1 h2
      exact ⟨hm1.trans hm2, hs2⟩
    · exact onPrevoteLoop_moves msg ks hs h

theorem prevoteLoop_moves (data : PrevoteType) :
    ∀ (ps : List PublicKey) {r r' : RandpaRound} {e e' : Randpa},
      r.state = .prevote ∨ r.state = .readyToPrecommit → prevoteLoop data ps r e = .ok (r', e') →
        Moves r r' ∧ (r'.state = .prevote ∨ r'.state = .readyToPrecommit)
  | [], _, _, _, _, hs, h => by cases h; exact ⟨.refl _, hs⟩
  | p :: ps, _, _, _, _, hs, h => by
    obtain ⟨⟨r1, e1⟩, h1, h2⟩ := except_bind_eq_ok.1 h
    obtain ⟨hm1, hs1⟩ := addPrevote_moves hs h1
    obtain ⟨hm2, hs2⟩ := prevoteLoop_moves data ps hs1 h2
    exact ⟨hm1.trans hm2, hs2⟩

/-- The states in which precommits are taken. -/
def Precommitting (s : StateType) : Prop :=
  s = .readyToPrecommit ∨ s = .precommit ∨ s = .done

theorem addPrecommit_moves {msg : PrecommitMsg} {r r' : RandpaRound} {e e' : Randpa}
    (hs : Precommitting r.state) (h : r.addPrecommit msg e = .ok (r', e')) :
    Moves r r' ∧ Precommitting r'.state := by
  dsimp only [addPrecommit] at h
  split at h
  · split at h
    · cases h
      exact ⟨.of_eq rfl rfl, hs⟩
    · rename_i hnd
      obtain ⟨b, -, h2⟩ := except_bind_eq_ok.1 h
      split at h2
      · obtain ⟨e2, he2, -⟩ := finishRound_done e (setState _ .done) rfl
        rw [he2] at h2
        cases h2
        exact ⟨.edge rfl (.done hnd), .inr (.inr rfl)⟩
      · cases h2
        exact ⟨.of_eq rfl rfl, hs⟩
  · cases h

theorem onPrecommitLoop_moves (msg : PrecommitMsg) :
    ∀ (ks : List PublicKey) {r r' : RandpaRound} {e e' : Randpa},
      Precommitting r.state → onPrecommitLoop msg ks r e = .ok (r', e') →
        Moves r r' ∧ Precommitting r'.state
  | [], _, _, _, _, hs, h => by cases h; exact ⟨.refl _, hs⟩
  | k :: ks, _, _, _, _, hs, h => by
    obtain ⟨b, -, h2⟩ := except_bind_eq_ok.1 h
    split at h2
    · obtain ⟨⟨r1, e1⟩, h3, h4⟩ := except_bind_eq_ok.1 h2
      obtain ⟨hm1, hs1⟩ := addPrecommit_moves hs h3
      obtain ⟨hm2, hs2⟩ := onPrecommitLoop_moves msg ks hs1 h4
      exact ⟨hm1.trans hm2, hs2⟩
    · exact onPrecommitLoop_moves msg ks hs h2

theorem precommitLoop_moves (data : PrecommitType) :
    ∀ (ps : List PublicKey) {r r' : RandpaRound} {e e' : Randpa},
      Precommitting r.state → precommitLoop data ps r e = .ok (r', e') →
        Moves r r' ∧ Precommitting r'.state
  | [], _, _, _, _, hs, h => by cases h; exact ⟨.refl _, hs⟩
  | p :: ps, _, _, _, _, hs, h => by
    obtain ⟨⟨r1, e1⟩, h1, h2⟩ := except_bind_eq_ok.1 h
    obtain ⟨hm1, hs1⟩ := addPrecommit_moves hs h1
    obtain ⟨hm2, hs2⟩ := precommitLoop_moves data ps hs1 h2
    exact ⟨hm1.trans hm2, hs2⟩

theorem precommit_moves {r r' : RandpaRound} {e e' : Randpa} (h : r.precommit e = .ok (r', e')) :
    Moves r r' := by
  dsimp only [precommit] at h
  split at h
  · cases h
  · rename_i hs
    have hs : r.state = .readyToPrecommit := not_not.1 hs
    split at h
    · cases h
    · obtain ⟨⟨r1, e1⟩, h1, h2⟩ := except_bind_eq_ok.1 h
      cases h2
      have hm : Moves r (r.setState .precommit) := .edge rfl (by rw [hs]; exact .precommit)
      exact hm.trans (precommitLoop_moves _ _ (.inr (.inl rfl)) h1).1

theorem endPrevote_moves {r r' : RandpaRound} {e e' : Randpa} (h : r.endPrevote e = .ok (r', e')) :
    Moves r r' := by
  dsimp only [endPrevote] at h
  split at h
  · cases h
    exact .edge rfl (.fail ‹_›)
  · split at h
    · cases h
    · exact (precommit_moves h).congr_left rfl rfl

theorem onPrevote_moves {msg : PrevoteMsg} {r r' : RandpaRound} {e e' : Randpa}
    (h : r.onPrevote msg e = .ok (r', e')) : Moves r r' := by
  unfold onPrevote at h
  split at h
  · cases h
    exact .refl _
  · rename_i hs
    simp only [Bool.and_eq_true, decide_eq_true_eq, not_and_or, not_not] at hs
    exact (onPrevoteLoop_moves msg _ hs h).1

theorem onPrecommit_moves {msg : PrecommitMsg} {r r' : RandpaRound} {e e' : Randpa}
    (h : r.onPrecommit msg e = .ok (r', e')) : Moves r r' := by
  unfold onPrecommit at h
  split at h
  · cases h
    exact .refl _
  · rename_i hs
    simp only [Bool.and_eq_true, decide_eq_true_eq, not_and_or, not_not] at hs
    exact (onPrecommitLoop_moves msg _ (hs.elim (.inr ∘ .inl) .inl) h).1

theorem new_moves {num : UInt32} {primary : PublicKey} {providers : List PublicKey}
    {r' : RandpaRound} {e e' : Randpa} (h : RandpaRound.new num primary providers e = .ok (r', e')) :
    r'.num = num ∧ Relation.ReflTransGen StateEdge .init r'.state := by
  simp only [RandpaRound.new, prevote, create] at h
  split at h
  · rename_i hi; exact absurd rfl hi
  · have hm : Moves (create num primary providers) ((create num primary providers).setState .prevote) :=
      .edge rfl .prevote
    split at h
    · cases h
      exact ⟨rfl, hm.path⟩
    · obtain ⟨⟨r1, e1⟩, h1, h2⟩ := except_bind_eq_ok.1 h
      cases h2
      have hm2 := hm.trans (prevoteLoop_moves _ _ (.inl rfl) h1).1
      exact ⟨hm2.num, hm2.path⟩

end RandpaRound

/-! ## The engine's steps -/

/-- The engine `e'` holds the round of `e` moved along the edges, or no round. -/
def SameRound (e e' : Randpa) : Prop :=
  ∀ r', e'.round = some r' → ∃ r, e.round = some r ∧ Moves r r'

/-- What a step does to the current round: the round after it is the round before it,
moved along the edges, or a new round whose number is above the number of the round it
replaced, if any, and whose state moved from `init`. -/
def RoundStep (e e' : Randpa) : Prop :=
  ∀ r', e'.round = some r' →
    (∃ r, e.round = some r ∧ Moves r r') ∨
      ((∀ r, e.round = some r → r.num < r'.num) ∧ Relation.ReflTransGen StateEdge .init r'.state)

namespace SameRound

variable {e e' e'' : Randpa}

theorem of_round_eq (h : e'.round = e.round) : SameRound e e' :=
  fun r' hr => ⟨r', h ▸ hr, .refl r'⟩

theorem trans (h1 : SameRound e e') (h2 : SameRound e' e'') : SameRound e e'' := fun r'' hr =>
  let ⟨r', hr', hm2⟩ := h2 r'' hr
  let ⟨r, hr, hm1⟩ := h1 r' hr'
  ⟨r, hr, hm1.trans hm2⟩

theorem roundStep (h : SameRound e e') : RoundStep e e' := fun r' hr => .inl (h r' hr)

end SameRound

theorem RoundStep.trans_same {e e' e'' : Randpa} (h1 : RoundStep e e') (h2 : SameRound e' e'') :
    RoundStep e e'' := by
  intro r'' hr
  obtain ⟨r', hr', hm⟩ := h2 r'' hr
  rcases h1 r' hr' with ⟨r, hr, hm1⟩ | ⟨hlt, hp⟩
  · exact .inl ⟨r, hr, hm1.trans hm⟩
  · exact .inr ⟨fun r h => hm.num ▸ hlt r h, hp.trans hm.path⟩

theorem RoundStep.of_round_eq {e e1 e' : Randpa} (hs : RoundStep e1 e') (h : e1.round = e.round) :
    RoundStep e e' := by
  unfold RoundStep at *
  rwa [h] at hs

namespace Randpa

theorem callRound_same {e e' : Randpa} {f : RandpaRound → Randpa → Except RandpaError (RandpaRound × Randpa)}
    (hf : ∀ r e r' e', f r e = .ok (r', e') → Moves r r') (h : e.callRound f = .ok e') :
    SameRound e e' := by
  unfold callRound at h
  split at h
  · cases h
    exact .of_round_eq rfl
  · rename_i r hr
    obtain ⟨⟨r1, e1⟩, h1, h2⟩ := except_bind_eq_ok.1 h
    cases h2
    rintro _ ⟨⟩
    exact ⟨r, hr, hf _ _ _ _ h1⟩

theorem processRoundMsg_same {e e' : Randpa} {data : NetMsgData} {n : UInt32}
    {f : RandpaRound → Randpa → Except RandpaError (RandpaRound × Randpa)}
    (hf : ∀ r e r' e', f r e = .ok (r', e') → Moves r r') (h : e.processRoundMsg data n f = .ok e') :
    SameRound e e' := by
  unfold processRoundMsg at h
  split at h
  · cases h
    exact .of_round_eq rfl
  split at h
  · cases h
    exact .of_round_eq rfl
  exact (SameRound.of_round_eq (by split <;> simp)).trans (callRound_same hf h)

theorem markDone_same {e : Randpa} (hnd : ∀ r, e.round = some r → r.state ≠ .done) (n : UInt32) :
    SameRound e (e.markDone n) := by
  unfold markDone
  split
  · rename_i r hr
    split
    · rintro _ ⟨⟩
      exact ⟨r, hr, .edge rfl (.done (hnd r hr))⟩
    · exact .of_round_eq rfl
  · exact .of_round_eq rfl

theorem onProof_same (e : Randpa) (m : ProofMsg) : SameRound e (e.onProof m) := by
  rcases e.onProof_cases m with h | ⟨-, -, -, hnd, h⟩
  · rw [h]
    exact .of_round_eq rfl
  · rw [h]
    exact (markDone_same hnd m.data.roundNum).trans (.of_round_eq (by simp))

theorem shouldStartRound_lt {e : Randpa} {id : BlockId} {r : RandpaRound}
    (hs : e.shouldStartRound id = true) (hr : e.round = some r) : r.num < roundNum id := by
  unfold shouldStartRound at hs
  rw [hr] at hs
  split at hs
  · cases hs
  · simpa using hs

theorem startRound_roundStep {e e' : Randpa} {ev : OnAcceptedBlockEvent}
    (h : e.startRound ev = .ok e') : RoundStep e e' := by
  unfold startRound at h
  split at h
  · rename_i hss
    split at h
    · obtain ⟨⟨r1, e1⟩, h1, h2⟩ := except_bind_eq_ok.1 h
      cases h2
      obtain ⟨hn, hp⟩ := RandpaRound.new_moves h1
      rintro _ ⟨⟩
      exact .inr ⟨fun r hr => hn ▸ shouldStartRound_lt hss hr, hp⟩
    · cases h
      intro _ hr
      cases hr
  · cases h
    exact (SameRound.of_round_eq rfl).roundStep

theorem scheduleRound_roundStep {e e' : Randpa} {ev : OnAcceptedBlockEvent}
    (h : e.scheduleRound ev = .ok e') : RoundStep e e' := by
  unfold scheduleRound at h
  split at h
  · cases h
    exact (SameRound.of_round_eq rfl).roundStep
  · obtain ⟨e1, h1, h2⟩ := except_bind_eq_ok.1 h
    split at h2
    · exact (startRound_roundStep h1).trans_same
        (callRound_same (fun _ _ _ _ => RandpaRound.endPrevote_moves) h2)
    · cases h2
      exact startRound_roundStep h1

theorem processMsg_roundStep {e e' : Randpa} {now : Nat} {m : RandpaMessage}
    (h : e.processMsg now m = .ok e') : RoundStep e e' := by
  rcases m with msg | ev
  · simp only [processMsg, processNetMsg] at h
    split at h
    · cases h
      exact (SameRound.of_round_eq rfl).roundStep
    split at h
    · exact (processRoundMsg_same (fun _ _ _ _ => RandpaRound.onPrevote_moves) h).roundStep
    · exact (processRoundMsg_same (fun _ _ _ _ => RandpaRound.onPrecommit_moves) h).roundStep
    all_goals cases h
    · exact (SameRound.of_round_eq (e.quiet_onFinalityNotice _ _).round).roundStep
    · exact (SameRound.of_round_eq (e.quiet_onFinalityReqProof _ _).round).roundStep
    · exact (e.onProof_same _).roundStep
    · exact (SameRound.of_round_eq (e.quiet_onHandshake _ _).round).roundStep
    · exact (SameRound.of_round_eq (e.quiet_onHandshakeAns _ _).round).roundStep
  · rcases ev with ev | id | s
    · simp only [processMsg, processEvent, onAcceptedBlock] at h
      split at h
      · cases h
        exact (SameRound.of_round_eq rfl).roundStep
      · exact (scheduleRound_roundStep h).of_round_eq rfl
    · cases h
      refine (SameRound.of_round_eq ?_).roundStep
      unfold onIrreversible
      split <;> rfl
    · cases h
      exact (SameRound.of_round_eq rfl).roundStep

end Randpa

/-! ## The state of the round along a run -/

/-- The single producer of key 1 finalizes round 0 at blocks 1 and 2; a second block at
height 2, on a fork, ends the prevote phase of the round again, and the done round
fails. -/
theorem done_round_fails :
    (producerOne.loop [(0, acceptedBlock (chainBlock 1) (chainBlock 0) 1 [1]),
        (0, acceptedBlock (chainBlock 2) (chainBlock 1) 1 [1])]).toOption.map
      (·.round.map fun r => (r.num, r.state)) = some (some (0, .done)) ∧
    (producerOne.loop [(0, acceptedBlock (chainBlock 1) (chainBlock 0) 1 [1]),
        (0, acceptedBlock (chainBlock 2) (chainBlock 1) 1 [1]),
        (0, acceptedBlock ⟨2, 20⟩ (chainBlock 1) 1 [1])]).toOption.map
      (·.round.map fun r => (r.num, r.state)) = some (some (0, .fail)) := by
  decide

/-! ## The numbers of the rounds -/

/-- A step never takes the current round backwards: the round after it has a number at least
the current one's, and when it is the same round, a round that was done or failed is still
done or failed. -/
theorem current_round_never_regresses {e e' : Randpa} {now : Nat} {m : RandpaMessage}
    (h : e.processMsg now m = .ok e') {r r' : RandpaRound} (hr : e.round = some r)
    (hr' : e'.round = some r') :
    r.num ≤ r'.num ∧
      (r'.num = r.num → r.state = .done ∨ r.state = .fail → r'.state = .done ∨ r'.state = .fail) := by
  rcases Randpa.processMsg_roundStep h r' hr' with ⟨r0, hr0, hm⟩ | ⟨hlt, -⟩
  · cases hr.symm.trans hr0
    exact ⟨hm.num ▸ Nat.le_refl _, fun _ => ended_of_path hm.path⟩
  · exact ⟨Nat.le_of_lt (hlt r hr), fun hn => absurd (hn ▸ hlt r hr) (Nat.lt_irrefl _)⟩

/-- The state of `producerOne` after blocks 1 and 2 of its own: round 0 is done. -/
def doneState : Randpa :=
  (producerOne.loop [(0, acceptedBlock (chainBlock 1) (chainBlock 0) 1 [1]),
    (0, acceptedBlock (chainBlock 2) (chainBlock 1) 1 [1])]).toOption.getD producerOne

/-- A fork block at the prevote boundary fails the done round 0, which stays round 0 and
ended. -/
theorem current_round_never_regresses_doneState :
    ∃ e' r r', doneState.processMsg 0 (acceptedBlock ⟨2, 20⟩ (chainBlock 1) 1 [1]) = .ok e' ∧
      doneState.round = some r ∧ e'.round = some r' ∧ r.state = .done ∧ r'.state = .fail ∧
      r.num ≤ r'.num ∧
      (r'.num = r.num → r.state = .done ∨ r.state = .fail → r'.state = .done ∨ r'.state = .fail) := by
  obtain ⟨r, hr, hrs⟩ := Option.map_eq_some'.1
    (by decide : doneState.round.map RandpaRound.state = some .done)
  have hstep : (doneState.processMsg 0 (acceptedBlock ⟨2, 20⟩ (chainBlock 1) 1 [1])).toOption.map
      (·.round.map RandpaRound.state) = some (some .fail) := by decide
  cases h : doneState.processMsg 0 (acceptedBlock ⟨2, 20⟩ (chainBlock 1) 1 [1]) with
  | error _ => simp [h, Except.toOption] at hstep
  | ok e' =>
    simp only [h, Except.toOption, Option.map_some', Option.some.injEq, Option.map_eq_some'] at hstep
    obtain ⟨r', hr', hrs'⟩ := hstep
    exact ⟨e', r, r', rfl, hr, hr', hrs, hrs', current_round_never_regresses h hr hr'⟩

/-- Rounds 0 and 1 are made at blocks 1 and 3, where key 1 is active; block 5, where it is
not, drops round 1 and makes none; then a fork block at height 1 makes round 0 again. -/
theorem older_round_made_again :
    (producerOne.loop [(0, acceptedBlock (chainBlock 1) (chainBlock 0) 1 [1, 2]),
        (0, acceptedBlock (chainBlock 2) (chainBlock 1) 1 [1, 2]),
        (0, acceptedBlock (chainBlock 3) (chainBlock 2) 1 [1, 2])]).toOption.map
      (·.round.map fun r => (r.num, r.state)) = some (some (1, .prevote)) ∧
    (producerOne.loop [(0, acceptedBlock (chainBlock 1) (chainBlock 0) 1 [1, 2]),
        (0, acceptedBlock (chainBlock 2) (chainBlock 1) 1 [1, 2]),
        (0, acceptedBlock (chainBlock 3) (chainBlock 2) 1 [1, 2]),
        (0, acceptedBlock (chainBlock 4) (chainBlock 3) 1 [1, 2]),
        (0, acceptedBlock (chainBlock 5) (chainBlock 4) 2 [2])]).toOption.map
      (·.round.map fun r => (r.num, r.state)) = some none ∧
    (producerOne.loop [(0, acceptedBlock (chainBlock 1) (chainBlock 0) 1 [1, 2]),
        (0, acceptedBlock (chainBlock 2) (chainBlock 1) 1 [1, 2]),
        (0, acceptedBlock (chainBlock 3) (chainBlock 2) 1 [1, 2]),
        (0, acceptedBlock (chainBlock 4) (chainBlock 3) 1 [1, 2]),
        (0, acceptedBlock (chainBlock 5) (chainBlock 4) 2 [2]),
        (0, acceptedBlock ⟨1, 10⟩ (chainBlock 0) 1 [1, 2])]).toOption.map
      (·.round.map fun r => (r.num, r.state)) = some (some (0, .prevote)) := by
  decide

end randpa_finality
