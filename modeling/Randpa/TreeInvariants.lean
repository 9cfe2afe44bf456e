-- What every handler keeps of the prefix tree: each node of the store is numbered above
-- its parent, and each key's prevote is held by one node at most, for a key that the
-- current round marked, and by none while there is no round.
import Randpa.Reachable

namespace randpa_finality

namespace PrefixChainTree

variable (t : PrefixChainTree)

/-- The keys whose prevotes node `h` holds: the keys of its `confirmation_data`. -/
def voters (h : Nat) : List PublicKey := (t.nodeAt h).confirmationData.keys

/-- Each node of the store with a parent has it in the store, at a smaller block number. -/
def EdgesRise : Prop :=
  ∀ h p, t.parentOf h = some p →
    p < t.nodes.length ∧ getBlockNum (t.blockIdOf p) < getBlockNum (t.blockIdOf h)

/-! ## Nodes past the end of the store -/

theorem nodeAt_of_le {h : Nat} (hh : t.nodes.length ≤ h) : t.nodeAt h = default := by
  simp [nodeAt, List.getD_eq_getElem?_getD, List.getElem?_eq_none hh]

theorem nodeAt_push_length (n : PrefixNode) : (t.push n).nodeAt t.nodes.length = n := by
  simp [nodeAt, push, List.getD_eq_getElem?_getD]

theorem voters_of_le {h : Nat} (hh : t.nodes.length ≤ h) : t.voters h = [] := by
  simp [voters, t.nodeAt_of_le hh, default, KeyMap.keys, KeyMap.empty]

/-! ## The prevotes each operation leaves -/

theorem mem_voters_modifyConf {h i : Nat} {k x : PublicKey} {c : PrevoteMsg} :
    x ∈ (t.modifyConf h (·.emplace k c)).voters i ↔
      x ∈ t.voters i ∨ (x = k ∧ i = h ∧ h < t.nodes.length) := by
  by_cases hi : i = h
  · subst hi
    by_cases hl : i < t.nodes.length
    · simp [voters, nodeAt, modifyConf, List.getD_eq_getElem?_getD, List.getElem?_modify,
        List.getElem?_eq_getElem hl, hl, or_comm]
    · simp [voters, t.nodeAt_of_le (not_lt.1 hl),
        (t.modifyConf i _).nodeAt_of_le (by simpa [modifyConf] using not_lt.1 hl), hl]
  · simp [voters, nodeAt, modifyConf, List.getD_eq_getElem?_getD, List.getElem?_modify,
      Ne.symm hi, hi]

@[simp]
theorem voters_removeConfirmations (h : Nat) : t.removeConfirmations.voters h = [] := by
  simp only [voters, nodeAt, removeConfirmations, List.getD_eq_getElem?_getD, List.getElem?_map]
  cases t.nodes[h]? <;> rfl

/-- A node pushed with no prevotes leaves every node's prevotes as they were. -/
theorem voters_push {n : PrefixNode} (hn : n.confirmationData = KeyMap.empty) (h : Nat) :
    (t.push n).voters h = t.voters h := by
  rcases lt_trichotomy h t.nodes.length with hh | rfl | hh
  · simp only [voters, t.nodeAt_push_of_lt n hh]
  · rw [voters, nodeAt_push_length, hn, t.voters_of_le le_rfl]; rfl
  · rw [t.voters_of_le hh.le, voters_of_le]
    simp only [push, List.length_append, List.length_singleton]
    omega

theorem voters_setFreshRoot (id : BlockId) (h : Nat) : (t.setFreshRoot id).voters h = t.voters h :=
  t.voters_push rfl h

/-! ## Rising edges under each operation -/

theorem edgesRise_of_nodes_eq {t t' : PrefixChainTree} (hn : t'.nodes = t.nodes)
    (he : t.EdgesRise) : t'.EdgesRise := by
  unfold EdgesRise parentOf blockIdOf nodeAt at *
  rw [hn]
  exact he

theorem SameShape.edgesRise {t t' : PrefixChainTree} (hs : SameShape t t') (he : t.EdgesRise) :
    t'.EdgesRise := by
  intro h p hp
  rw [hs.parentOf_eq] at hp
  rw [hs.blockIdOf_eq, hs.blockIdOf_eq, hs.length_eq]
  exact he h p hp

/-- A node pushed below a node of the store with a smaller number keeps the edges rising. -/
theorem EdgesRise.push {t : PrefixChainTree} {n : PrefixNode} (he : t.EdgesRise)
    (hn : ∀ p, n.parent = some p →
      p < t.nodes.length ∧ getBlockNum (t.blockIdOf p) < getBlockNum n.blockId) :
    (t.push n).EdgesRise := by
  have hlen : (t.push n).nodes.length = t.nodes.length + 1 := by simp [PrefixChainTree.push]
  intro h p hp
  rcases lt_trichotomy h t.nodes.length with hh | rfl | hh
  · rw [parentOf, t.nodeAt_push_of_lt n hh] at hp
    obtain ⟨hpl, hlt⟩ := he h p hp
    rw [blockIdOf, blockIdOf, t.nodeAt_push_of_lt n hh, t.nodeAt_push_of_lt n hpl, hlen]
    exact ⟨by omega, hlt⟩
  · rw [parentOf, nodeAt_push_length] at hp
    obtain ⟨hpl, hlt⟩ := hn p hp
    rw [blockIdOf, blockIdOf, nodeAt_push_length, t.nodeAt_push_of_lt n hpl, hlen]
    exact ⟨by omega, hlt⟩
  · rw [parentOf, (t.push n).nodeAt_of_le (by omega)] at hp
    cases hp

theorem EdgesRise.setFreshRoot {t : PrefixChainTree} (he : t.EdgesRise) (id : BlockId) :
    (t.setFreshRoot id).EdgesRise :=
  edgesRise_of_nodes_eq rfl (he.push fun _ hp => nomatch hp)

end PrefixChainTree

/-! ## Inserted blocks -/

/-- Inserted blocks hold no prevotes. -/
theorem voters_insertBlocks (creator : PublicKey) (active : KeySet) (i : Nat) :
    ∀ (h : Nat) (bs : List BlockId) (t : PrefixChainTree),
      (insertBlocks creator active h bs t).voters i = t.voters i
  | _, [], _ => rfl
  | h, b :: bs, t => by
    unfold insertBlocks
    split
    · exact voters_insertBlocks creator active i _ bs t
    · rw [voters_insertBlocks creator active i _ bs _]
      exact t.voters_push rfl i

namespace PrefixChainTree

theorem voters_insert {t t' : PrefixChainTree} {chain : ChainType} {creator : PublicKey}
    {active : KeySet} (hi : t.insert chain creator active = some t') (i : Nat) :
    t'.voters i = t.voters i := by
  simp only [insert, Option.map_eq_some'] at hi
  obtain ⟨h, -, rfl⟩ := hi
  exact voters_insertBlocks creator active i h chain.blocks t

/-- A block inserted below its parent, numbered above it, keeps the edges rising. -/
theorem EdgesRise.insert {t t' : PrefixChainTree} {prev b : BlockId} {creator : PublicKey}
    {active : KeySet} (he : t.EdgesRise) (hn : getBlockNum prev < getBlockNum b)
    (hi : t.insert ⟨prev, [b]⟩ creator active = some t') : t'.EdgesRise := by
  simp only [PrefixChainTree.insert, Option.map_eq_some'] at hi
  obtain ⟨h, hf, rfl⟩ := hi
  simp only [insertBlocks]
  split
  · exact he
  · refine edgesRise_of_nodes_eq rfl (he.push fun p hp => ?_)
    cases hp
    exact ⟨t.find_lt hf, (find_spec hf).1 ▸ hn⟩

end PrefixChainTree

/-! ## Prevotes held once -/

/-- Each key's prevote is held by one node of the store at most, and only keys of `P`
have one. -/
structure VotesOk (P : KeySet) (t : PrefixChainTree) : Prop where
  unique : ∀ k h h', k ∈ t.voters h → k ∈ t.voters h' → h = h'
  voted : ∀ k h, k ∈ t.voters h → k ∈ P

namespace VotesOk

variable {P : KeySet} {t t' : PrefixChainTree}

theorem congr (hv : VotesOk P t) (ht : ∀ h, t'.voters h = t.voters h) : VotesOk P t' :=
  ⟨fun k h h' => by rw [ht, ht]; exact hv.unique k h h', fun k h => by rw [ht]; exact hv.voted k h⟩

theorem removeConfirmations (P : KeySet) (t : PrefixChainTree) : VotesOk P t.removeConfirmations :=
  ⟨fun _ _ _ h => by simp at h, fun _ _ h => by simp at h⟩

/-- A prevote of `k` put at node `h` keeps each prevote held once, when `k` has none yet or
has it at `h`. -/
theorem vote (hv : VotesOk P t) {k : PublicKey} {h : Nat} (c : PrevoteMsg)
    (hk : k ∉ P ∨ k ∈ t.voters h) : VotesOk (P.insert k) (t.modifyConf h (·.emplace k c)) := by
  have held : ∀ i, k ∈ t.voters i → i = h := fun i hi =>
    hv.unique k i h hi (hk.resolve_left (not_not.2 (hv.voted k i hi)))
  refine ⟨fun x i i' hi hi' => ?_, fun x i hi => ?_⟩
  · rw [t.mem_voters_modifyConf] at hi hi'
    rcases hi with hi | ⟨rfl, rfl, -⟩ <;> rcases hi' with hi' | ⟨hx, rfl, -⟩
    · exact hv.unique x i i' hi hi'
    · exact held i (hx ▸ hi)
    · exact (held i' hi').symm
    · rfl
  · rw [t.mem_voters_modifyConf] at hi
    exact KeySet.mem_insert.2 (hi.symm.imp And.left (hv.voted x i))

end VotesOk

/-! ## The engine's helpers -/

namespace Randpa

theorem voters_updateLib (e : Randpa) (id : BlockId) (h : Nat) :
    (e.updateLib id).prefixTree.voters h = e.prefixTree.voters h := by
  unfold updateLib
  split
  · rfl
  · exact e.prefixTree.voters_setFreshRoot id h

theorem edgesRise_updateLib {e : Randpa} (he : e.prefixTree.EdgesRise) (id : BlockId) :
    (e.updateLib id).prefixTree.EdgesRise := by
  unfold updateLib
  split
  · exact PrefixChainTree.edgesRise_of_nodes_eq rfl he
  · exact he.setFreshRoot id

end Randpa

/-! ## The round's methods -/

/-- What a call of the round keeps: the edges of the tree rise, and each prevote is held
once, by a key the round marked. -/
structure RoundKeeps (r : RandpaRound) (e : Randpa) (r' : RandpaRound) (e' : Randpa) : Prop where
  edges : e.prefixTree.EdgesRise → e'.prefixTree.EdgesRise
  votes : VotesOk r.prevotedKeys e.prefixTree → VotesOk r'.prevotedKeys e'.prefixTree

namespace RoundKeeps

variable {r r1 r2 : RandpaRound} {e e1 e2 : Randpa}

theorem refl (r : RandpaRound) (e : Randpa) : RoundKeeps r e r e := ⟨id, id⟩

theorem trans (h1 : RoundKeeps r e r1 e1) (h2 : RoundKeeps r1 e1 r2 e2) : RoundKeeps r e r2 e2 :=
  ⟨h2.edges ∘ h1.edges, h2.votes ∘ h1.votes⟩

/-- A call that leaves the marked keys and every node's prevotes alone. -/
theorem of_voters (hp : r1.prevotedKeys = r.prevotedKeys)
    (hv : ∀ h, e1.prefixTree.voters h = e.prefixTree.voters h)
    (he : e.prefixTree.EdgesRise → e1.prefixTree.EdgesRise) : RoundKeeps r e r1 e1 :=
  ⟨he, fun h => hp ▸ h.congr hv⟩

theorem of_frame (hp : r1.prevotedKeys = r.prevotedKeys) (ht : e1.prefixTree = e.prefixTree) :
    RoundKeeps r e r1 e1 :=
  of_voters hp (by simp [ht]) (ht ▸ id)

/-- A call after a step that left the marked keys and the tree alone. -/
theorem of_frame_left (h : RoundKeeps r1 e1 r2 e2) (hp : r1.prevotedKeys = r.prevotedKeys)
    (ht : e1.prefixTree = e.prefixTree) : RoundKeeps r e r2 e2 :=
  (of_frame hp ht).trans h

end RoundKeeps

/-- Every successful call of the method keeps `RoundKeeps`. -/
def KeepsTree (f : RandpaRound → Randpa → Except RandpaError (RandpaRound × Randpa)) : Prop :=
  ∀ r e r' e', f r e = .ok (r', e') → RoundKeeps r e r' e'

theorem finishRound_keeps {e e' : Randpa} {r r' : RandpaRound} (h : e.finishRound r = .ok (r', e')) :
    RoundKeeps r e r' e' := by
  have hp : ∀ b r1, r.finish = (b, r1) → r1.prevotedKeys = r.prevotedKeys := by
    unfold RandpaRound.finish
    split <;> rintro _ _ ⟨⟩ <;> rfl
  unfold Randpa.finishRound at h
  split at h
  · cases h; exact .of_frame (hp _ _ ‹_›) rfl
  · obtain ⟨_, -, h⟩ := except_bind_eq_ok.1 h
    split at h <;> cases h
    · exact .of_voters (hp _ _ ‹_›) (fun i => by simp [Randpa.voters_updateLib])
        fun he => Randpa.edgesRise_updateLib (by simpa using he) _
    · exact .of_frame (hp _ _ ‹_›) rfl

namespace RandpaRound

/-- What `add_prevote` does: the key is marked, and the node the prevote lands on takes
it. -/
theorem addPrevote_result {r r' : RandpaRound} {e e' : Randpa} {data : PrevoteType} {k : PublicKey}
    {h : Nat} (ht : e.prefixTree.confirmationTarget ⟨data.baseBlock, data.blocks⟩ = some h)
    (ha : r.addPrevote ⟨data, [k]⟩ e = .ok (r', e')) :
    r'.prevotedKeys = r.prevotedKeys.insert k ∧
      e'.prefixTree = e.prefixTree.modifyConf h (·.emplace k ⟨data, [k]⟩) := by
  simp only [addPrevote, NetworkMsg.publicKeys,
    PrefixChainTree.addConfirmations_of_target ht k ⟨data, [k]⟩] at ha
  split at ha <;> cases ha <;> exact ⟨rfl, rfl⟩

/-- A prevote of a key with no prevote yet, or with its prevote at the same node, keeps
each prevote held once. -/
theorem addPrevote_keeps {r r' : RandpaRound} {e e' : Randpa} {data : PrevoteType} {k : PublicKey}
    {h : Nat} (ht : e.prefixTree.confirmationTarget ⟨data.baseBlock, data.blocks⟩ = some h)
    (hk : k ∉ r.prevotedKeys ∨ k ∈ e.prefixTree.voters h)
    (ha : r.addPrevote ⟨data, [k]⟩ e = .ok (r', e')) : RoundKeeps r e r' e' := by
  obtain ⟨hp, he⟩ := addPrevote_result ht ha
  refine ⟨fun h' => he ▸ (e.prefixTree.sameShape_modifyConf h _).edgesRise h', fun hv => ?_⟩
  rw [hp, he]
  exact hv.vote _ hk

/-- The loop of `on(prevote_msg)` adds only prevotes of keys that `validate_prevote` found
unmarked. -/
theorem onPrevoteLoop_keeps (msg : PrevoteMsg) :
    ∀ (ks : List PublicKey) (r : RandpaRound) (e : Randpa) (r' : RandpaRound) (e' : Randpa),
      onPrevoteLoop msg ks r e = .ok (r', e') → RoundKeeps r e r' e'
  | [], r, e, _, _, hl => by cases hl; exact .refl r e
  | k :: ks, r, e, r', e', hl => by
    unfold onPrevoteLoop at hl
    split at hl
    · rename_i hv
      simp only [validatePrevote, Bool.and_eq_true, Bool.not_eq_true', decide_eq_false_iff_not] at hv
      obtain ⟨⟨-, hk⟩, hsome⟩ := hv
      rw [findLastNode_eq] at hsome
      split at hsome
      · cases hsome
      · rename_i h ht
        obtain ⟨⟨r1, e1⟩, h1, h2⟩ := except_bind_eq_ok.1 hl
        exact (addPrevote_keeps ht (.inl hk) h1).trans (onPrevoteLoop_keeps msg ks r1 e1 r' e' h2)
    · exact onPrevoteLoop_keeps msg ks r e r' e' hl

/-- The loop of `prevote()` adds its keys' prevotes unchecked, all at one node; a key it
finds marked already has its prevote there. -/
theorem prevoteLoop_keeps (data : PrevoteType) {h : Nat} :
    ∀ (ps : List PublicKey) (r : RandpaRound) (e : Randpa) (r' : RandpaRound) (e' : Randpa),
      e.prefixTree.confirmationTarget ⟨data.baseBlock, data.blocks⟩ = some h →
      (∀ x ∈ r.prevotedKeys, x ∈ e.prefixTree.voters h) →
      prevoteLoop data ps r e = .ok (r', e') → RoundKeeps r e r' e'
  | [], r, e, _, _, _, _, hl => by cases hl; exact .refl r e
  | p :: ps, r, e, r', e', ht, hk, hl => by
    obtain ⟨⟨r1, e1⟩, h1, h2⟩ := except_bind_eq_ok.1 hl
    obtain ⟨hp1, ht1⟩ := addPrevote_result ht h1
    have hlt := PrefixChainTree.inTree_lt (PrefixChainTree.confirmationTarget_spec ht)
    have hpk : p ∉ r.prevotedKeys ∨ p ∈ e.prefixTree.voters h := by
      by_cases hp : p ∈ r.prevotedKeys
      · exact .inr (hk p hp)
      · exact .inl hp
    refine (addPrevote_keeps ht hpk h1).trans (@prevoteLoop_keeps data h ps r1 e1 r' e' ?_ ?_ h2)
    · rw [ht1, (e.prefixTree.sameShape_modifyConf h _).confirmationTarget_eq]
      exact ht
    · intro x hx
      rw [hp1, KeySet.mem_insert] at hx
      rw [ht1, PrefixChainTree.mem_voters_modifyConf]
      exact hx.elim (fun hx => .inr ⟨hx, rfl, hlt⟩) fun hx => .inl (hk x hx)

theorem addPrecommit_keeps {msg : PrecommitMsg} {r r' : RandpaRound} {e e' : Randpa}
    (h : r.addPrecommit msg e = .ok (r', e')) : RoundKeeps r e r' e' := by
  unfold addPrecommit at h
  split at h
  · dsimp only at h
    split at h
    · cases h; exact .of_frame rfl rfl
    · obtain ⟨_, -, h⟩ := except_bind_eq_ok.1 h
      split at h
      · exact (finishRound_keeps h).of_frame_left rfl rfl
      · cases h; exact .of_frame rfl rfl
  · cases h

theorem onPrecommitLoop_keeps (msg : PrecommitMsg) :
    ∀ (ks : List PublicKey) (r : RandpaRound) (e : Randpa) (r' : RandpaRound) (e' : Randpa),
      onPrecommitLoop msg ks r e = .ok (r', e') → RoundKeeps r e r' e'
  | [], r, e, _, _, hl => by cases hl; exact .refl r e
  | k :: ks, r, e, r', e', hl => by
    obtain ⟨_, -, hl⟩ := except_bind_eq_ok.1 hl
    split at hl
    · obtain ⟨⟨r1, e1⟩, h1, h2⟩ := except_bind_eq_ok.1 hl
      exact (addPrecommit_keeps h1).trans (onPrecommitLoop_keeps msg ks r1 e1 r' e' h2)
    · exact onPrecommitLoop_keeps msg ks r e r' e' hl

theorem precommitLoop_keeps (data : PrecommitType) :
    ∀ (ps : List PublicKey) (r : RandpaRound) (e : Randpa) (r' : RandpaRound) (e' : Randpa),
      precommitLoop data ps r e = .ok (r', e') → RoundKeeps r e r' e'
  | [], r, e, _, _, hl => by cases hl; exact .refl r e
  | p :: ps, r, e, r', e', hl => by
    obtain ⟨⟨r1, e1⟩, h1, h2⟩ := except_bind_eq_ok.1 hl
    exact (addPrecommit_keeps h1).trans (precommitLoop_keeps data ps r1 e1 r' e' h2)

theorem onPrevote_keeps (msg : PrevoteMsg) : KeepsTree (onPrevote msg) := fun r e r' e' h => by
  unfold onPrevote at h
  split at h
  · cases h; exact .refl r e
  · exact onPrevoteLoop_keeps msg _ r e r' e' h

theorem onPrecommit_keeps (msg : PrecommitMsg) : KeepsTree (onPrecommit msg) := fun r e r' e' h => by
  unfold onPrecommit at h
  split at h
  · cases h; exact .refl r e
  · exact onPrecommitLoop_keeps msg _ r e r' e' h

theorem precommit_keeps : KeepsTree precommit := fun r e r' e' h => by
  unfold precommit at h
  split at h
  · cases h
  · dsimp only at h
    split at h
    · cases h
    · obtain ⟨⟨r1, e1⟩, h1, h2⟩ := except_bind_eq_ok.1 h
      cases h2
      exact ((precommitLoop_keeps _ _ _ _ _ _ h1).trans (.of_frame rfl (by simp))).of_frame_left rfl rfl

theorem endPrevote_keeps : KeepsTree endPrevote := fun r e r' e' h => by
  unfold endPrevote at h
  split at h
  · cases h; exact .of_frame rfl rfl
  · dsimp only at h
    split at h
    · cases h
    · exact (precommit_keeps _ _ _ _ h).of_frame_left rfl rfl

/-- `prevote()` of a round that has marked no key. -/
theorem prevote_keeps {r r' : RandpaRound} {e e' : Randpa} (hp : ∀ x, x ∉ r.prevotedKeys)
    (h : r.prevote e = .ok (r', e')) : RoundKeeps r e r' e' := by
  unfold prevote at h
  split at h
  · cases h
  · dsimp only at h
    split at h
    · cases h; exact .of_frame rfl rfl
    · rename_i n _
      obtain ⟨⟨r1, e1⟩, h1, h2⟩ := except_bind_eq_ok.1 h
      cases h2
      obtain ⟨_, ht⟩ := Option.isSome_iff_exists.1
        (e.prefixTree.confirmationTarget_getBranch (e.prefixTree.blockIdOf n))
      refine ((prevoteLoop_keeps _ _ _ _ _ _ ht ?_ h1).trans (.of_frame rfl (by simp))).of_frame_left
        rfl rfl
      exact fun x hx => absurd hx (hp x)

theorem new_keeps {num : UInt32} {primary : PublicKey} {providers : List PublicKey} {e e' : Randpa}
    {r' : RandpaRound} (h : RandpaRound.new num primary providers e = .ok (r', e')) :
    RoundKeeps (create num primary providers) e r' e' :=
  prevote_keeps KeySet.not_mem_empty h

end RandpaRound

/-! ## The engine's handlers -/

/-- The prevotes of the engine are held once each, by keys its round marked, and by no node
while there is no round. -/
def VotesHeld (e : Randpa) : Prop :=
  VotesOk ((e.round.map RandpaRound.prevotedKeys).getD KeySet.empty) e.prefixTree

/-- What a handler keeps: the edges of the tree rise, and the prevotes are held as
`VotesHeld` says. -/
structure Keeps (e e' : Randpa) : Prop where
  edges : e.prefixTree.EdgesRise → e'.prefixTree.EdgesRise
  votes : VotesHeld e → VotesHeld e'

namespace Keeps

variable {e e1 e2 : Randpa}

theorem refl (e : Randpa) : Keeps e e := ⟨id, id⟩

theorem trans (h1 : Keeps e e1) (h2 : Keeps e1 e2) : Keeps e e2 :=
  ⟨h2.edges ∘ h1.edges, h2.votes ∘ h1.votes⟩

/-- A step that leaves the tree and the round's marked keys alone. -/
theorem of_round (ht : e1.prefixTree = e.prefixTree)
    (hr : e1.round.map RandpaRound.prevotedKeys = e.round.map RandpaRound.prevotedKeys) :
    Keeps e e1 :=
  ⟨ht ▸ id, by unfold VotesHeld; rw [ht, hr]; exact id⟩

theorem of_quiet (h : Quiet e e1) : Keeps e e1 := of_round h.prefixTree (by rw [h.round])

end Keeps

namespace Randpa

theorem callRound_keeps {f : RandpaRound → Randpa → Except RandpaError (RandpaRound × Randpa)}
    (hf : KeepsTree f) {e e' : Randpa} (h : e.callRound f = .ok e') : Keeps e e' := by
  unfold callRound at h
  split at h
  · cases h; exact .refl e
  · rename_i r hr
    obtain ⟨⟨r1, e1⟩, h1, h2⟩ := except_bind_eq_ok.1 h
    cases h2
    have hk := hf r e r1 e1 h1
    refine ⟨hk.edges, fun hv => hk.votes ?_⟩
    simpa only [VotesHeld, hr, Option.map_some', Option.getD_some] using hv

theorem processRoundMsg_keeps {f : RandpaRound → Randpa → Except RandpaError (RandpaRound × Randpa)}
    (hf : KeepsTree f) {e e' : Randpa} {data : NetMsgData} {n : UInt32}
    (h : e.processRoundMsg data n f = .ok e') : Keeps e e' := by
  unfold processRoundMsg at h
  split at h
  · cases h; exact .refl e
  split at h
  · cases h; exact .refl e
  refine Keeps.trans (.of_quiet ?_) (callRound_keeps hf h)
  split
  · exact (e.quiet_selfMessages _).trans (quiet_bcast _ _)
  · exact e.quiet_selfMessages _

theorem markDone_prevotedKeys (e : Randpa) (n : UInt32) :
    (e.markDone n).round.map RandpaRound.prevotedKeys = e.round.map RandpaRound.prevotedKeys := by
  unfold markDone
  split <;> (try split) <;> simp_all [RandpaRound.setState]

theorem onProof_keeps (e : Randpa) (m : ProofMsg) : Keeps e (e.onProof m) := by
  rcases e.onProof_cases m with h | ⟨-, -, -, -, h⟩
  · rw [h]; exact .refl e
  · rw [h]
    exact .of_round (by simp) (by simp [markDone_prevotedKeys])

theorem removeRound_keeps (e : Randpa) : Keeps e e.removeRound :=
  ⟨(PrefixChainTree.sameShape_removeConfirmations _).edgesRise,
    fun _ => VotesOk.removeConfirmations _ _⟩

/-- A round made after `remove_round`: its prevotes are the only ones in the tree. -/
theorem newRound_keeps {e e' : Randpa} {num : UInt32} {primary : PublicKey} {active : KeySet}
    (h : e.removeRound.newRound num primary active = .ok e') : Keeps e e' := by
  obtain ⟨⟨r, e1⟩, h1, h2⟩ := except_bind_eq_ok.1 h
  cases h2
  have hk := RandpaRound.new_keeps h1
  exact ⟨fun he => hk.edges ((e.removeRound_keeps).edges he),
    fun _ => hk.votes (VotesOk.removeConfirmations _ _)⟩

theorem startRound_keeps {e e' : Randpa} {ev : OnAcceptedBlockEvent} (h : e.startRound ev = .ok e') :
    Keeps e e' := by
  unfold startRound at h
  split at h
  · split at h
    · exact newRound_keeps h
    · cases h; exact e.removeRound_keeps
  · cases h; exact .refl e

theorem scheduleRound_keeps {e e' : Randpa} {ev : OnAcceptedBlockEvent}
    (h : e.scheduleRound ev = .ok e') : Keeps e e' := by
  unfold scheduleRound at h
  split at h
  · cases h; exact .refl e
  · obtain ⟨e1, h1, h2⟩ := except_bind_eq_ok.1 h
    refine (startRound_keeps h1).trans ?_
    split at h2
    · exact callRound_keeps RandpaRound.endPrevote_keeps h2
    · cases h2; exact .refl _

/-- An accepted block keeps the prevotes, and keeps the edges rising when its number is
above its parent's. -/
theorem onAcceptedBlock_keeps {e e' : Randpa} {ev : OnAcceptedBlockEvent}
    (h : e.onAcceptedBlock ev = .ok e') :
    (getBlockNum ev.prevBlockId < getBlockNum ev.blockId →
      e.prefixTree.EdgesRise → e'.prefixTree.EdgesRise) ∧ (VotesHeld e → VotesHeld e') := by
  unfold onAcceptedBlock at h
  split at h
  · cases h; exact ⟨fun _ => id, id⟩
  · rename_i tree hi
    have hk := scheduleRound_keeps h
    exact ⟨fun hn he => hk.edges (he.insert hn hi),
      fun hv => hk.votes (hv.congr (PrefixChainTree.voters_insert hi))⟩

theorem onIrreversible_keeps (e : Randpa) (id : BlockId) : Keeps e (e.onIrreversible id) := by
  unfold onIrreversible
  split
  · exact .refl e
  · exact ⟨fun he => edgesRise_updateLib he id, fun hv => hv.congr (e.voters_updateLib id)⟩

theorem processNetMsg_keeps {e e' : Randpa} {now : Nat} {msg : RandpaNetMsg}
    (h : e.processNetMsg now msg = .ok e') : Keeps e e' := by
  unfold processNetMsg at h
  split at h
  · cases h; exact .refl e
  · split at h
    · exact processRoundMsg_keeps (RandpaRound.onPrevote_keeps _) h
    · exact processRoundMsg_keeps (RandpaRound.onPrecommit_keeps _) h
    all_goals cases h
    · exact .of_quiet (e.quiet_onFinalityNotice _ _)
    · exact .of_quiet (e.quiet_onFinalityReqProof _ _)
    · exact e.onProof_keeps _
    · exact .of_quiet (e.quiet_onHandshake _ _)
    · exact .of_quiet (e.quiet_onHandshakeAns _ _)

end Randpa

/-- An accepted-block event whose block is numbered above its parent; any other message. -/
def RandpaMessage.Numbered : RandpaMessage → Prop
  | .event (.onAcceptedBlock ev) => getBlockNum ev.prevBlockId < getBlockNum ev.blockId
  | _ => True

instance : DecidablePred RandpaMessage.Numbered
  | .event (.onAcceptedBlock ev) =>
    inferInstanceAs (Decidable (getBlockNum ev.prevBlockId < getBlockNum ev.blockId))
  | .event (.onIrreversible _) => isTrue trivial
  | .event (.onNewPeer _) => isTrue trivial
  | .net _ => isTrue trivial

/-- Every handled message keeps each prevote held once, and keeps the edges of the tree
rising unless it is a block numbered no higher than its parent. -/
theorem Randpa.processMsg_keeps {e e' : Randpa} {now : Nat} {m : RandpaMessage}
    (h : e.processMsg now m = .ok e') :
    (m.Numbered → e.prefixTree.EdgesRise → e'.prefixTree.EdgesRise) ∧ (VotesHeld e → VotesHeld e') := by
  have of_keeps : Keeps e e' → (m.Numbered → e.prefixTree.EdgesRise → e'.prefixTree.EdgesRise) ∧
      (VotesHeld e → VotesHeld e') := fun hk => ⟨fun _ => hk.edges, hk.votes⟩
  match m, h with
  | .net _, h => exact of_keeps (processNetMsg_keeps h)
  | .event (.onAcceptedBlock _), h => exact onAcceptedBlock_keeps h
  | .event (.onIrreversible id), h => cases h; exact of_keeps (e.onIrreversible_keeps id)
  | .event (.onNewPeer s), h => cases h; exact of_keeps (.of_quiet (e.quiet_send s _))

/-! ## Runs from a chosen start -/

/-- The states that runs reach from a start on a tree that passes `P`, with messages that
pass `M`. -/
inductive ReachableFrom (P : PrefixChainTree → Prop) (M : RandpaMessage → Prop) : Randpa → Prop
  | start {tree : PrefixChainTree} {e0 e : Randpa} :
      P tree → e0.Configured → e0.start tree = .ok e → ReachableFrom P M e
  | step {e e' : Randpa} {now : Nat} {m : RandpaMessage} :
      ReachableFrom P M e → M m → e.processMsg now m = .ok e' → ReachableFrom P M e'

namespace ReachableFrom

variable {P : PrefixChainTree → Prop} {M : RandpaMessage → Prop} {e e' : Randpa}

theorem reachable (h : ReachableFrom P M e) : Reachable e := by
  induction h with
  | start _ hc hs => exact .start hc hs
  | step _ _ hs ih => exact ih.step hs

theorem loop {e e' : Randpa} (h : ReachableFrom P M e) :
    ∀ {ms : List (Nat × RandpaMessage)}, (∀ x ∈ ms, M x.2) → e.loop ms = .ok e' → ReachableFrom P M e'
  | [], _, hl => by cases hl; exact h
  | (now, m) :: ms, hm, hl => by
    unfold Randpa.loop at hl
    split at hl
    · cases hl; exact h
    · obtain ⟨e1, h1, h2⟩ := except_bind_eq_ok.1 hl
      exact (h.step (hm _ (List.mem_cons_self _ _)) h1).loop
        (fun x hx => hm x (List.mem_cons_of_mem _ hx)) h2

theorem loop_getD (h : ReachableFrom P M e) {ms : List (Nat × RandpaMessage)} (hm : ∀ x ∈ ms, M x.2) :
    ReachableFrom P M ((e.loop ms).toOption.getD e) := by
  cases hl : e.loop ms with
  | error _ => exact h
  | ok e' => exact h.loop hm hl

/-- A start on a tree whose edges rise, then numbered blocks: the edges keep rising. -/
theorem edgesRise (hP : ∀ t, P t → t.EdgesRise) (hM : ∀ m, M m → m.Numbered)
    (h : ReachableFrom P M e) : e.prefixTree.EdgesRise := by
  induction h with
  | start ht hc hs => obtain ⟨_, _, _, _, rfl⟩ := hc.start_eq hs; exact hP _ ht
  | step _ hm hs ih => exact (Randpa.processMsg_keeps hs).1 (hM _ hm) ih

/-- A start on a tree that holds no prevote: the prevotes are held as `VotesHeld` says. -/
theorem votesHeld (hP : ∀ t, P t → ∀ n, t.voters n = []) (h : ReachableFrom P M e) :
    VotesHeld e := by
  induction h with
  | start ht hc hs =>
    obtain ⟨_, _, _, _, rfl⟩ := hc.start_eq hs
    exact ⟨fun _ _ _ hk => by simp [hP _ ht] at hk, fun _ _ hk => by simp [hP _ ht] at hk⟩
  | step _ _ hs ih => exact (Randpa.processMsg_keeps hs).2 ih

end ReachableFrom

end randpa_finality
