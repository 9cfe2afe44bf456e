-- Prevotes delivered to a round in different orders. Each signed prevote that
-- `validate_prevote` takes marks its key and lands on one node, and these effects commute;
-- the threshold, though, is tested only at the node where each prevote lands.
import Randpa.Reachable

namespace randpa_finality

namespace RandpaRound

/-- Prevote messages handed to `on(prevote_msg)` one after another. -/
def onPrevotes : List PrevoteMsg → RandpaRound → Randpa → Except RandpaError (RandpaRound × Randpa)
  | [], r, e => .ok (r, e)
  | m :: ms, r, e => do
    let (r, e) ← r.onPrevote m e
    onPrevotes ms r e

/-- The states in which `on(prevote_msg)` takes prevotes. -/
def Prevoting (s : StateType) : Prop := s = .prevote ∨ s = .readyToPrecommit

instance : DecidablePred Prevoting := fun _ => inferInstanceAs (Decidable (_ ∨ _))

theorem onPrevote_eq (msg : PrevoteMsg) (r : RandpaRound) (e : Randpa) :
    r.onPrevote msg e = if Prevoting r.state then onPrevoteLoop msg msg.publicKeys r e else .ok (r, e) := by
  unfold onPrevote Prevoting
  by_cases h1 : r.state = .prevote <;> by_cases h2 : r.state = .readyToPrecommit <;> simp [h1, h2]

/-! ## The effect of one signed prevote -/

/-- The node that the signed prevote `v` lands on, if `validate_prevote` takes it in a round
numbered `num` whose prevoted keys are `P`. -/
def prevoteTarget (num : UInt32) (P : KeySet) (t : PrefixChainTree) (v : PrevoteType × PublicKey) :
    Option Nat :=
  match t.confirmationTarget ⟨v.1.baseBlock, v.1.blocks⟩ with
  | some h => if num = v.1.roundNum ∧ v.2 ∉ P ∧ v.2 ∈ (t.nodeAt h).activeBpKeys then some h else none
  | none => none

/-- What the signed prevote `v` does to the prevoted keys and the tree of a round numbered
`num` in the prevote phase: if it is taken, its key is marked and its node holds it. -/
def prevoteEffect (num : UInt32) (s : KeySet × PrefixChainTree) (v : PrevoteType × PublicKey) :
    KeySet × PrefixChainTree :=
  match prevoteTarget num s.1 s.2 v with
  | some h => (s.1.insert v.2, s.2.modifyConf h (·.emplace v.2 ⟨v.1, [v.2]⟩))
  | none => s

theorem validatePrevote_eq (r : RandpaRound) (t : PrefixChainTree) (msg : PrevoteMsg) (k : PublicKey) :
    r.validatePrevote t msg k = (prevoteTarget r.num r.prevotedKeys t (msg.data, k)).isSome := by
  unfold validatePrevote prevoteTarget
  rw [findLastNode_eq]
  cases t.confirmationTarget ⟨msg.data.baseBlock, msg.data.blocks⟩ with
  | none => simp
  | some h =>
    by_cases h1 : r.num = msg.data.roundNum <;> by_cases h2 : k ∈ r.prevotedKeys <;>
      by_cases h3 : k ∈ (t.nodeAt h).activeBpKeys <;> simp [h1, h2, h3]

theorem prevoteTarget_some {num : UInt32} {P : KeySet} {t : PrefixChainTree}
    {v : PrevoteType × PublicKey} {h : Nat} (hv : prevoteTarget num P t v = some h) :
    t.confirmationTarget ⟨v.1.baseBlock, v.1.blocks⟩ = some h := by
  unfold prevoteTarget at hv
  split at hv
  · split_ifs at hv; cases hv; assumption
  · cases hv

theorem prevoteTarget_sameShape {t t' : PrefixChainTree} (hs : t.SameShape t') (num : UInt32)
    (P : KeySet) (v : PrevoteType × PublicKey) :
    prevoteTarget num P t' v = prevoteTarget num P t v := by
  simp only [prevoteTarget, hs.confirmationTarget_eq, hs.activeBpKeys_eq]

theorem prevoteTarget_insert {k : PublicKey} {v : PrevoteType × PublicKey} (hk : v.2 ≠ k)
    (num : UInt32) (P : KeySet) (t : PrefixChainTree) :
    prevoteTarget num (P.insert k) t v = prevoteTarget num P t v := by
  simp only [prevoteTarget, KeySet.mem_insert, hk, false_or]

theorem prevoteEffect_of_none {num : UInt32} {P : KeySet} {t : PrefixChainTree}
    {v : PrevoteType × PublicKey} (hv : prevoteTarget num P t v = none) :
    prevoteEffect num (P, t) v = (P, t) := by
  simp only [prevoteEffect, hv]

theorem prevoteEffect_of_some {num : UInt32} {P : KeySet} {t : PrefixChainTree}
    {v : PrevoteType × PublicKey} {h : Nat} (hv : prevoteTarget num P t v = some h) :
    prevoteEffect num (P, t) v = (P.insert v.2, t.modifyConf h (·.emplace v.2 ⟨v.1, [v.2]⟩)) := by
  simp only [prevoteEffect, hv]

/-- A prevote of another key is taken or not, and lands, as if `v` had not come first. -/
theorem prevoteTarget_after {v w : PrevoteType × PublicKey} (hk : v.2 ≠ w.2) (num : UInt32)
    (s : KeySet × PrefixChainTree) :
    prevoteTarget num (prevoteEffect num s v).1 (prevoteEffect num s v).2 w = prevoteTarget num s.1 s.2 w := by
  obtain ⟨P, t⟩ := s
  cases hv : prevoteTarget num P t v with
  | none => rw [prevoteEffect_of_none hv]
  | some h =>
    rw [prevoteEffect_of_some hv, prevoteTarget_sameShape (t.sameShape_modifyConf h _),
      prevoteTarget_insert (Ne.symm hk)]

/-- Two signed prevotes commute unless they are two different prevotes of one key. -/
theorem prevoteEffect_comm {v w : PrevoteType × PublicKey} (hvw : v.2 = w.2 → v = w) (num : UInt32)
    (s : KeySet × PrefixChainTree) :
    prevoteEffect num (prevoteEffect num s v) w = prevoteEffect num (prevoteEffect num s w) v := by
  by_cases hk : v.2 = w.2
  · rw [hvw hk]
  obtain ⟨P, t⟩ := s
  have hw := prevoteTarget_after hk num (P, t)
  have hv := prevoteTarget_after (Ne.symm hk) num (P, t)
  cases hv0 : prevoteTarget num P t v with
  | none =>
    rw [hv0] at hv
    rw [prevoteEffect_of_none hv0, prevoteEffect_of_none hv]
  | some a =>
    cases hw0 : prevoteTarget num P t w with
    | none =>
      rw [hw0] at hw
      rw [prevoteEffect_of_none hw0, prevoteEffect_of_none hw]
    | some b =>
      rw [hv0] at hv
      rw [hw0] at hw
      rw [prevoteEffect_of_some hw, prevoteEffect_of_some hv, prevoteEffect_of_some hv0,
        prevoteEffect_of_some hw0, KeySet.insert_comm,
        PrefixChainTree.modifyConf_comm _ (Or.inr fun c => KeyMap.emplace_comm c hk _ _)]

/-! ## The round follows the effects -/

/-- A prevote of key `k` whose path lands on node `h`: the key is marked, node `h` holds the
prevote, and only the state and the best node may change besides, to a prevote state. -/
theorem addPrevote_of_target {r : RandpaRound} {e : Randpa} {data : PrevoteType} (k : PublicKey)
    {h : Nat} (ht : e.prefixTree.confirmationTarget ⟨data.baseBlock, data.blocks⟩ = some h)
    (hp : Prevoting r.state) :
    ∃ st b, Prevoting st ∧ r.addPrevote ⟨data, [k]⟩ e =
      .ok ({ r with prevotedKeys := r.prevotedKeys.insert k, state := st, bestNode := b },
        { e with prefixTree := e.prefixTree.modifyConf h (·.emplace k ⟨data, [k]⟩) }) := by
  simp only [addPrevote, NetworkMsg.publicKeys, PrefixChainTree.addConfirmations_of_target ht]
  split
  · exact ⟨_, _, Or.inr rfl, rfl⟩
  · exact ⟨_, _, hp, rfl⟩

/-- The loop of `on(prevote_msg)` in a prevote state does the effects of its signed
prevotes in turn. -/
theorem onPrevoteLoop_effect (msg : PrevoteMsg) :
    ∀ (ks : List PublicKey) (r : RandpaRound) (e : Randpa), Prevoting r.state →
      ∃ st b, Prevoting st ∧ onPrevoteLoop msg ks r e =
        .ok ({ r with
            prevotedKeys := ((ks.map (msg.data, ·)).foldl (prevoteEffect r.num) (r.prevotedKeys, e.prefixTree)).1
            state := st, bestNode := b },
          { e with
            prefixTree := ((ks.map (msg.data, ·)).foldl (prevoteEffect r.num) (r.prevotedKeys, e.prefixTree)).2 })
  | [], r, e, hp => ⟨r.state, r.bestNode, hp, rfl⟩
  | k :: ks, r, e, hp => by
    simp only [onPrevoteLoop, validatePrevote_eq, List.map_cons, List.foldl_cons]
    cases ht : prevoteTarget r.num r.prevotedKeys e.prefixTree (msg.data, k) with
    | none =>
      rw [Option.isSome_none, if_neg Bool.false_ne_true, prevoteEffect_of_none ht]
      exact onPrevoteLoop_effect msg ks r e hp
    | some h =>
      obtain ⟨st1, b1, hp1, h1⟩ := addPrevote_of_target k (prevoteTarget_some ht) hp
      obtain ⟨st, b, hp2, h2⟩ := onPrevoteLoop_effect msg ks
        { r with prevotedKeys := r.prevotedKeys.insert k, state := st1, bestNode := b1 }
        { e with prefixTree := e.prefixTree.modifyConf h (·.emplace k ⟨msg.data, [k]⟩) } hp1
      refine ⟨st, b, hp2, ?_⟩
      rw [Option.isSome_some, if_pos rfl, h1, except_ok_bind, prevoteEffect_of_some ht]
      exact h2

/-- The signed prevotes of a list of messages: those of its first message, then the rest's. -/
theorem signedVotes_cons (m : PrevoteMsg) (ms : List PrevoteMsg) :
    Randpa.signedVotes (m :: ms) = m.publicKeys.map (m.data, ·) ++ Randpa.signedVotes ms :=
  List.flatMap_cons _ _ _

theorem mem_signedVotes {ms : List PrevoteMsg} {v : PrevoteType × PublicKey} :
    v ∈ Randpa.signedVotes ms ↔ ∃ m ∈ ms, v.2 ∈ m.publicKeys ∧ v.1 = m.data := by
  simp only [Randpa.signedVotes, List.mem_flatMap, List.mem_map]
  constructor
  · rintro ⟨m, hm, k, hk, rfl⟩
    exact ⟨m, hm, hk, rfl⟩
  · rintro ⟨m, hm, hk, h1⟩
    exact ⟨m, hm, v.2, hk, by rw [← h1]⟩

/-- Delivered to a round in a prevote state, prevote messages do the effects of all their
signed prevotes in turn, and the round stays in a prevote state. -/
theorem onPrevotes_of_prevoting :
    ∀ (ms : List PrevoteMsg) (r : RandpaRound) (e : Randpa), Prevoting r.state →
      ∃ st b, Prevoting st ∧ onPrevotes ms r e =
        .ok ({ r with
            prevotedKeys := ((Randpa.signedVotes ms).foldl (prevoteEffect r.num) (r.prevotedKeys, e.prefixTree)).1
            state := st, bestNode := b },
          { e with
            prefixTree := ((Randpa.signedVotes ms).foldl (prevoteEffect r.num) (r.prevotedKeys, e.prefixTree)).2 })
  | [], r, e, hp => ⟨r.state, r.bestNode, hp, rfl⟩
  | m :: ms, r, e, hp => by
    obtain ⟨st1, b1, hp1, h1⟩ := onPrevoteLoop_effect m m.publicKeys r e hp
    obtain ⟨st, b, hp2, h2⟩ := onPrevotes_of_prevoting ms
      { r with
        prevotedKeys := ((m.publicKeys.map (m.data, ·)).foldl (prevoteEffect r.num) (r.prevotedKeys, e.prefixTree)).1
        state := st1, bestNode := b1 }
      { e with
        prefixTree := ((m.publicKeys.map (m.data, ·)).foldl (prevoteEffect r.num) (r.prevotedKeys, e.prefixTree)).2 }
      hp1
    refine ⟨st, b, hp2, ?_⟩
    rw [onPrevotes, onPrevote_eq, if_pos hp, h1, except_ok_bind, signedVotes_cons, List.foldl_append]
    exact h2

/-- Out of the prevote states, prevote messages change nothing. -/
theorem onPrevotes_of_not :
    ∀ (ms : List PrevoteMsg) (r : RandpaRound) (e : Randpa), ¬Prevoting r.state →
      onPrevotes ms r e = .ok (r, e)
  | [], _, _, _ => rfl
  | _ :: ms, r, e, hp => by
    rw [onPrevotes, onPrevote_eq, if_neg hp, except_ok_bind]
    exact onPrevotes_of_not ms r e hp

/-- Prevote messages in which no key signs two different prevotes, delivered in any two
orders, leave the same prevoted keys and the same engine, with the tree's prevotes in it;
the two rounds differ at most in their state and their best node. -/
theorem prevotes_order_free {ms ms' : List PrevoteMsg} (hp : ms.Perm ms')
    (hc : ∀ m1 ∈ ms, ∀ m2 ∈ ms, ∀ k ∈ m1.publicKeys, k ∈ m2.publicKeys → m1.data = m2.data)
    (r : RandpaRound) (e : Randpa) :
    ∃ r1 e1 r2 e2, onPrevotes ms r e = .ok (r1, e1) ∧ onPrevotes ms' r e = .ok (r2, e2) ∧
      r1.prevotedKeys = r2.prevotedKeys ∧ e1 = e2 ∧
      { r1 with state := r.state, bestNode := r.bestNode } =
        { r2 with state := r.state, bestNode := r.bestNode } := by
  by_cases hr : Prevoting r.state
  · have hvw : ∀ v ∈ Randpa.signedVotes ms, ∀ w ∈ Randpa.signedVotes ms, v.2 = w.2 → v = w := by
      intro v hv w hw hk
      obtain ⟨m1, hm1, hk1, hd1⟩ := mem_signedVotes.1 hv
      obtain ⟨m2, hm2, hk2, hd2⟩ := mem_signedVotes.1 hw
      exact Prod.ext (by rw [hd1, hd2, hc m1 hm1 m2 hm2 _ hk1 (hk ▸ hk2)]) hk
    have hperm : (Randpa.signedVotes ms).Perm (Randpa.signedVotes ms') := hp.flatMap_right _
    have hf := hperm.foldl_eq' (fun v hv w hw z => prevoteEffect_comm (hvw v hv w hw) r.num z)
      (r.prevotedKeys, e.prefixTree)
    obtain ⟨st1, b1, -, h1⟩ := onPrevotes_of_prevoting ms r e hr
    obtain ⟨st2, b2, -, h2⟩ := onPrevotes_of_prevoting ms' r e hr
    refine ⟨_, _, _, _, h1, h2, ?_, ?_, ?_⟩ <;> rw [hf]
  · exact ⟨r, e, r, e, onPrevotes_of_not ms r e hr, onPrevotes_of_not ms' r e hr, rfl, rfl, rfl⟩

/-! ## Three prevotes over a fork -/

/-- A full node after block 1 and two children of it, blocks 2 with hashes 2 and 3, all
with keys 1, 2 and 3 active. -/
def forkState : Randpa :=
  (fullNode.loop
    [(0, acceptedBlock (chainBlock 1) BlockId.zero 1 [1, 2, 3]),
      (0, acceptedBlock ⟨2, 2⟩ (chainBlock 1) 1 [1, 2, 3]),
      (0, acceptedBlock ⟨2, 3⟩ (chainBlock 1) 1 [1, 2, 3])]).toOption.getD
    fullNode

/-- The prevote of key `k` in round 0 for the path of block 1 and then `tip`. -/
def forkPrevote (tip : List BlockId) (k : PublicKey) : PrevoteMsg :=
  ⟨⟨0, BlockId.zero, chainBlock 1 :: tip⟩, [k]⟩

/-- Keys 1 and 2 prevote for the two children of block 1, then key 3 for block 1. -/
def forkPrevotes : List PrevoteMsg :=
  [forkPrevote [⟨2, 2⟩] 1, forkPrevote [⟨2, 3⟩] 2, forkPrevote [] 3]

/-- The same prevotes, key 3's first. -/
def forkPrevotesParentFirst : List PrevoteMsg :=
  [forkPrevote [] 3, forkPrevote [⟨2, 2⟩] 1, forkPrevote [⟨2, 3⟩] 2]

/-- A round 0 in the prevote phase. -/
def prevotingRound : RandpaRound := (create 0 0 []).setState .prevote

theorem prevotes_order_free_forkState :
    forkPrevotes.Perm forkPrevotesParentFirst ∧
      (∀ m1 ∈ forkPrevotes, ∀ m2 ∈ forkPrevotes, ∀ k ∈ m1.publicKeys, k ∈ m2.publicKeys →
        m1.data = m2.data) ∧
      ∃ r1 e1 r2 e2, onPrevotes forkPrevotes prevotingRound forkState = .ok (r1, e1) ∧
        onPrevotes forkPrevotesParentFirst prevotingRound forkState = .ok (r2, e2) ∧
        r1.prevotedKeys = r2.prevotedKeys ∧ e1 = e2 ∧
        { r1 with state := prevotingRound.state, bestNode := prevotingRound.bestNode } =
          { r2 with state := prevotingRound.state, bestNode := prevotingRound.bestNode } :=
  ⟨by decide, by decide, prevotes_order_free (by decide) (by decide) prevotingRound forkState⟩

/-- Delivered last, key 3's prevote lands on block 1, which then holds three prevotes at it
and below it, and the round is ready to precommit block 1. Delivered first, it is alone at
block 1, the other two land on the children, each alone, and the round stays in `prevote`. -/
theorem prevote_order_changes_best_node :
    forkPrevotes.Perm forkPrevotesParentFirst ∧
      ((onPrevotes forkPrevotes prevotingRound forkState).toOption.map
          fun p => (p.1.state, p.1.bestNode, p.1.prevotedKeys.keys),
        (onPrevotes forkPrevotesParentFirst prevotingRound forkState).toOption.map
          fun p => (p.1.state, p.1.bestNode, p.1.prevotedKeys.keys)) =
      (some (.readyToPrecommit, some 1, [1, 2, 3]), some (.prevote, none, [1, 2, 3])) := by
  decide

end RandpaRound

end randpa_finality
