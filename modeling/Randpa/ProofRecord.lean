-- The proofs the node builds, caches and sends. The round's record names its best node's
-- block in every vote, so every proof the node keeps or sends passes the block tests of
-- `validate_proof`; and every block it publishes has a proof with a precommit supermajority.
import Randpa.TreeInvariants

namespace randpa_finality

/-! ## The block tests of a proof -/

/-- A prevote's path covers block `b`: `b` is its base block or one of its blocks. -/
def PrevoteType.Covers (d : PrevoteType) (b : BlockId) : Prop := d.baseBlock = b ∨ b ∈ d.blocks

/-- Every signed vote of the proof names its best block: each prevote's path covers it,
and each precommit is for it. -/
def ProofType.NamesBest (p : ProofType) : Prop :=
  (∀ v ∈ Randpa.signedVotes p.prevotes, v.1.Covers p.bestBlock) ∧
    ∀ v ∈ Randpa.signedVotes p.precommits, v.1.blockId = p.bestBlock

theorem mem_signedVotes {T : Type} {d : T} {k : PublicKey} {l : List (NetworkMsg T)} :
    (d, k) ∈ Randpa.signedVotes l ↔ ∃ m ∈ l, k ∈ m.publicKeys ∧ m.data = d := by
  simp only [Randpa.signedVotes, List.mem_flatMap, List.mem_map, Prod.mk.injEq]
  constructor
  · rintro ⟨m, hm, k', hk, rfl, rfl⟩; exact ⟨m, hm, hk, rfl⟩
  · rintro ⟨m, hm, hk, rfl⟩; exact ⟨m, hm, k, hk, rfl, rfl⟩

/-- A proof names its best block when every message in it does, signed or not. -/
theorem ProofType.namesBest_of_msgs {p : ProofType}
    (hp : ∀ m ∈ p.prevotes, m.data.Covers p.bestBlock)
    (hc : ∀ m ∈ p.precommits, m.data.blockId = p.bestBlock) : p.NamesBest := by
  refine ⟨fun ⟨d, k⟩ hv => ?_, fun ⟨d, k⟩ hv => ?_⟩ <;> obtain ⟨m, hm, -, rfl⟩ := mem_signedVotes.1 hv
  · exact hp m hm
  · exact hc m hm

/-- Of a prevote whose path covers the best block, `validate_prevote` tests only the key. -/
theorem validatePrevote_of_covers {d : PrevoteType} {b : BlockId} (hd : d.Covers b)
    (k : PublicKey) (keys : KeySet) : Randpa.validatePrevote d k b keys = decide (k ∈ keys) := by
  have : (d.baseBlock == b || d.blocks.contains b) = true := by
    rcases hd with hd | hd <;> simp [hd]
  rw [Randpa.validatePrevote, this, Bool.true_and]

/-- Of a precommit for the best block, `validate_precommit` tests only the key. -/
theorem validatePrecommit_of_eq {d : PrecommitType} {b : BlockId} (hd : d.blockId = b)
    (k : PublicKey) (keys : KeySet) : Randpa.validatePrecommit d k b keys = decide (k ∈ keys) := by
  simp [Randpa.validatePrecommit, hd]

/-- A proof that `validate_proof` accepts names its best block. -/
theorem ProofType.namesBest_of_validateProof {e : Randpa} {p : ProofType}
    (hv : e.validateProof p = true) : p.NamesBest := by
  unfold Randpa.validateProof at hv
  split at hv
  · cases hv
  · simp only [Bool.and_eq_true, List.all_eq_true] at hv
    obtain ⟨⟨hp, hc⟩, -⟩ := hv
    refine ⟨fun v hv => ?_, fun v hv => ?_⟩
    · have := hp v hv
      simp only [Randpa.validatePrevote, Bool.and_eq_true, Bool.or_eq_true, beq_iff_eq,
        List.elem_eq_mem, decide_eq_true_eq] at this
      exact this.1
    · have := hc v hv
      simp only [Randpa.validatePrecommit, Bool.and_eq_true, beq_iff_eq, decide_eq_true_eq] at this
      exact this.2.1

/-- A proof message on the network names its best block. -/
def NetMsgData.ProofOk : NetMsgData → Prop
  | .proof m => m.data.NamesBest
  | _ => True

/-- An output whose proof, if it carries one, names its best block. -/
def RandpaOutput.ProofOk : RandpaOutput → Prop
  | .send _ d => d.ProofOk
  | .finality _ => True

/-- A proof certifies its best block in a tree: the block is at a node of the store, every
signed precommit of the proof is for it, and the signed precommits outnumber two thirds of
the keys active at that node. -/
def ProofType.Certifies (p : ProofType) (t : PrefixChainTree) : Prop :=
  ∃ h < t.nodes.length, t.blockIdOf h = p.bestBlock ∧
    (∀ v ∈ Randpa.signedVotes p.precommits, v.1.blockId = p.bestBlock) ∧
    (Randpa.signedVotes p.precommits).length > 2 * (t.nodeAt h).activeBpKeys.size / 3

/-! ## Counting signed votes -/

theorem length_insertKey_le (k : PublicKey) :
    ∀ l : List PublicKey, (insertKey k l).length ≤ l.length + 1
  | [] => by simp [insertKey]
  | a :: l => by
    unfold insertKey
    split_ifs
    · simp
    · simp
    · simpa using length_insertKey_le k l

/-- `validate_proof` counts each key once, so at most once per signed vote. -/
theorem size_keysOf_le {T : Type} (votes : List (T × PublicKey)) :
    (Randpa.keysOf votes).size ≤ votes.length := by
  suffices ∀ s : KeySet, (votes.foldl (fun s v => s.insert v.2) s).size ≤ s.size + votes.length by
    simpa [KeySet.size, KeySet.empty] using this KeySet.empty
  induction votes with
  | nil => simp
  | cons v vs ih =>
    intro s
    have h1 := ih (s.insert v.2)
    have h2 := length_insertKey_le v.2 s.keys
    simp only [List.foldl_cons, List.length_cons, KeySet.size, KeySet.insert] at h1 h2 ⊢
    omega

/-- Messages with one key each give one signed vote each. -/
theorem length_signedVotes {T : Type} :
    ∀ {l : List (NetworkMsg T)}, (∀ m ∈ l, ∃ k, m.publicKeys = [k]) →
      (Randpa.signedVotes l).length = l.length
  | [], _ => rfl
  | m :: l, hl => by
    obtain ⟨k, hk⟩ := hl m (List.mem_cons_self _ _)
    have hc : Randpa.signedVotes (m :: l) = m.publicKeys.map (m.data, ·) ++ Randpa.signedVotes l :=
      List.flatMap_cons _ _ _
    rw [hc, List.length_append, length_signedVotes fun m hm => hl m (List.mem_cons_of_mem _ hm), hk]
    simp [Nat.add_comm]

/-- A proof that `validate_proof` accepts certifies its best block in the engine's tree. -/
theorem ProofType.certifies_of_validateProof {e : Randpa} {p : ProofType}
    (hv : e.validateProof p = true) : p.Certifies e.prefixTree := by
  have hn := (ProofType.namesBest_of_validateProof hv).2
  unfold Randpa.validateProof at hv
  split at hv
  · cases hv
  · rename_i h hf
    obtain ⟨hid, hin⟩ := PrefixChainTree.find_spec hf
    simp only [Bool.and_eq_true, decide_eq_true_eq] at hv
    have hle := size_keysOf_le (Randpa.signedVotes p.precommits)
    exact ⟨h, PrefixChainTree.inTree_lt hin, hid, hn, by omega⟩

/-! ## The prevotes in the tree cover their nodes -/

namespace KeyMap

theorem mem_putEntry {V : Type} {k : PublicKey} {v : V} :
    ∀ {l : List (PublicKey × V)} {x}, x ∈ putEntry false k v l → x ∈ l ∨ x = (k, v)
  | [], x, hx => .inr (List.mem_singleton.1 hx)
  | (a, w) :: l, x, hx => by
    simp only [putEntry, Bool.false_eq_true, ↓reduceIte] at hx
    split_ifs at hx with h1 h2
    · exact (List.mem_cons.1 hx).elim .inr .inl
    · subst h2; exact .inl hx
    · rcases List.mem_cons.1 hx with rfl | hx
      · exact .inl (List.mem_cons_self _ _)
      · exact (mem_putEntry hx).imp_left (List.mem_cons_of_mem _)

/-- `emplace` adds at most its own value. -/
theorem mem_values_emplace {V : Type} {m : KeyMap V} {k : PublicKey} {c x : V}
    (hx : x ∈ (m.emplace k c).values) : x ∈ m.values ∨ x = c := by
  obtain ⟨⟨a, y⟩, hy, rfl⟩ := List.mem_map.1 hx
  rcases mem_putEntry hy with hy | hy
  · exact .inl (List.mem_map_of_mem _ hy)
  · exact .inr (congrArg Prod.snd hy)

end KeyMap

namespace PrefixChainTree

variable {t t' : PrefixChainTree}

/-- Every prevote a node of the store holds covers the node's block. -/
def ConfOk (t : PrefixChainTree) : Prop :=
  ∀ h, ∀ v ∈ (t.nodeAt h).confirmationData.values, v.data.Covers (t.blockIdOf h)

/-- A prevote lands on a block of its path. -/
theorem confirmationTarget_covers {d : PrevoteType} {h : Nat}
    (ht : t.confirmationTarget ⟨d.baseBlock, d.blocks⟩ = some h) : d.Covers (t.blockIdOf h) := by
  unfold confirmationTarget at ht
  split at ht
  · rename_i b hb
    rw [(find_spec ht).1]
    exact .inr (List.mem_reverse.1 (List.mem_of_find?_eq_some hb))
  · exact .inl (find_spec ht).1.symm

theorem ConfOk.of_nodes_eq (hc : t.ConfOk) (hn : t'.nodes = t.nodes) : t'.ConfOk := by
  unfold ConfOk blockIdOf nodeAt at *
  rw [hn]
  exact hc

theorem confOk_removeConfirmations (t : PrefixChainTree) : t.removeConfirmations.ConfOk := by
  intro h v hv
  simp only [nodeAt, removeConfirmations, List.getD_eq_getElem?_getD, List.getElem?_map] at hv
  cases hn : t.nodes[h]? <;> simp [hn, default, KeyMap.values, KeyMap.empty] at hv

/-- A node pushed with no prevotes keeps the prevotes covering their nodes. -/
theorem ConfOk.push (hc : t.ConfOk) {n : PrefixNode} (hn : n.confirmationData = KeyMap.empty) :
    (t.push n).ConfOk := by
  intro h v hv
  rcases lt_trichotomy h t.nodes.length with hh | rfl | hh
  · rw [blockIdOf, t.nodeAt_push_of_lt n hh] at *
    exact hc h v hv
  · simp [nodeAt_push_length, hn, KeyMap.values, KeyMap.empty] at hv
  · rw [(t.push n).nodeAt_of_le (by simp [PrefixChainTree.push]; omega)] at hv
    simp [default, KeyMap.values, KeyMap.empty] at hv

theorem ConfOk.setFreshRoot (hc : t.ConfOk) (id : BlockId) : (t.setFreshRoot id).ConfOk :=
  (hc.push rfl).of_nodes_eq rfl

/-- A prevote put at the node it covers keeps the prevotes covering their nodes. -/
theorem ConfOk.modifyConf (hc : t.ConfOk) {h : Nat} {k : PublicKey} {c : PrevoteMsg}
    (hcov : c.data.Covers (t.blockIdOf h)) : (t.modifyConf h (·.emplace k c)).ConfOk := by
  intro i v hv
  rw [(t.sameShape_modifyConf h _).blockIdOf_eq]
  simp only [nodeAt, PrefixChainTree.modifyConf, List.getD_eq_getElem?_getD,
    List.getElem?_modify] at hv
  cases hn : t.nodes[i]? with
  | none => simp [hn, default, KeyMap.values, KeyMap.empty] at hv
  | some n =>
    have hni : t.nodeAt i = n := by simp [nodeAt, List.getD_eq_getElem?_getD, hn]
    simp only [hn, Option.map_some', Option.getD_some] at hv
    split at hv
    · rename_i hih
      subst hih
      rcases KeyMap.mem_values_emplace hv with hv | rfl
      · exact hc _ v (hni ▸ hv)
      · exact hcov
    · exact hc i v (hni ▸ hv)

end PrefixChainTree

theorem confOk_insertBlocks (creator : PublicKey) (active : KeySet) :
    ∀ (h : Nat) (bs : List BlockId) {t : PrefixChainTree}, t.ConfOk →
      (insertBlocks creator active h bs t).ConfOk
  | _, [], _, hc => hc
  | h, b :: bs, t, hc => by
    unfold insertBlocks
    split
    · exact confOk_insertBlocks creator active _ bs hc
    · exact confOk_insertBlocks creator active _ bs ((hc.push rfl).of_nodes_eq rfl)

theorem PrefixChainTree.ConfOk.insert {t t' : PrefixChainTree} (hc : t.ConfOk) {chain : ChainType}
    {creator : PublicKey} {active : KeySet} (hi : t.insert chain creator active = some t') : t'.ConfOk := by
  simp only [PrefixChainTree.insert, Option.map_eq_some'] at hi
  obtain ⟨h, -, rfl⟩ := hi
  exact confOk_insertBlocks creator active h chain.blocks hc

theorem Randpa.confOk_updateLib {e : Randpa} (hc : e.prefixTree.ConfOk) (id : BlockId) :
    (e.updateLib id).prefixTree.ConfOk := by
  unfold updateLib
  split
  · exact hc.of_nodes_eq rfl
  · exact hc.setFreshRoot id

/-! ## The round's record -/

theorem PrefixChainTree.Grows.blockIdOf_eq {t t' : PrefixChainTree} (hg : t.Grows t') {h : Nat}
    (hh : h < t.nodes.length) : t'.blockIdOf h = t.blockIdOf h := by
  simpa using congrArg PrefixNode.blockId (hg.erase_nodeAt h hh)

/-- A certificate stays while the store grows: its node keeps its block and its keys. -/
theorem ProofType.Certifies.grows {p : ProofType} {t t' : PrefixChainTree} (hc : p.Certifies t)
    (hg : t.Grows t') : p.Certifies t' := by
  obtain ⟨h, hh, hb, hp, hn⟩ := hc
  refine ⟨h, Nat.lt_of_lt_of_le hh hg.length_le, (hg.blockIdOf_eq hh).trans hb, hp, ?_⟩
  rw [hg.activeBpKeys_eq hh]
  exact hn

theorem ProofType.Certifies.sameShape {p : ProofType} {t t' : PrefixChainTree} (hc : p.Certifies t)
    (hs : t.SameShape t') : p.Certifies t' := by
  obtain ⟨h, hh, hb, hp, hn⟩ := hc
  refine ⟨h, hs.length_eq ▸ hh, (hs.blockIdOf_eq h).trans hb, hp, ?_⟩
  rw [hs.activeBpKeys_eq h]
  exact hn

/-- The proof a round builds, against the tree: the best node is in the store; before the
prevote phase ends the proof is the default one; every precommit is for the best node's
block and carries one key; and once `end_prevote` has set the best block, it is the best node's block and
every prevote's path covers it. -/
structure RecordOk (r : RandpaRound) (t : PrefixChainTree) : Prop where
  best_lt : ∀ h, r.bestNode = some h → h < t.nodes.length
  early : r.state = .init ∨ r.state = .prevote →
    r.proof.precommits = [] ∧ r.proof.bestBlock = BlockId.zero ∧ r.proof.prevotes = []
  precommits : ∀ m ∈ r.proof.precommits, ∃ h, r.bestNode = some h ∧ m.data.blockId = t.blockIdOf h
  keyed : ∀ m ∈ r.proof.precommits, ∃ k, m.publicKeys = [k]
  best : r.proof.bestBlock = BlockId.zero ∧ r.proof.prevotes = [] ∨
    ∃ h, r.bestNode = some h ∧ r.proof.bestBlock = t.blockIdOf h ∧
      ∀ m ∈ r.proof.prevotes, m.data.Covers r.proof.bestBlock

namespace RecordOk

variable {r r' : RandpaRound} {t t' : PrefixChainTree}

/-- The record stays right while the nodes of the store keep their blocks. -/
theorem mono (hr : RecordOk r t) (hl : t.nodes.length ≤ t'.nodes.length)
    (hb : ∀ h < t.nodes.length, t'.blockIdOf h = t.blockIdOf h) : RecordOk r t' := by
  refine ⟨fun h hh => Nat.lt_of_lt_of_le (hr.best_lt h hh) hl, hr.early, fun m hm => ?_, hr.keyed, ?_⟩
  · obtain ⟨h, hh, hm⟩ := hr.precommits m hm
    exact ⟨h, hh, hm.trans (hb h (hr.best_lt h hh)).symm⟩
  · rcases hr.best with hz | ⟨h, hh, hbest, hp⟩
    · exact .inl hz
    · exact .inr ⟨h, hh, hbest.trans (hb h (hr.best_lt h hh)).symm, hp⟩

theorem grows (hr : RecordOk r t) (hg : t.Grows t') : RecordOk r t' :=
  hr.mono hg.length_le fun _ hh => hg.blockIdOf_eq hh

theorem sameShape (hr : RecordOk r t) (hs : t.SameShape t') : RecordOk r t' :=
  hr.mono hs.length_eq.ge fun h _ => hs.blockIdOf_eq h

/-- A round that differs only in its marked keys, or in a state past the prevote phase,
keeps the record. -/
theorem congr (hr : RecordOk r t) (hp : r'.proof = r.proof) (hb : r'.bestNode = r.bestNode)
    (hs : r'.state = .init ∨ r'.state = .prevote → r.state = .init ∨ r.state = .prevote) :
    RecordOk r' t := by
  refine ⟨hb ▸ hr.best_lt, fun h => hp ▸ hr.early (hs h), hp ▸ hb ▸ hr.precommits, hp ▸ hr.keyed, ?_⟩
  rw [hp, hb]; exact hr.best

/-- The record of a round that the constructor has just built. -/
theorem create (num : UInt32) (primary : PublicKey) (providers : List PublicKey)
    (t : PrefixChainTree) : RecordOk (RandpaRound.create num primary providers) t :=
  ⟨nofun, fun _ => ⟨rfl, rfl, rfl⟩, nofun, nofun, .inl ⟨rfl, rfl⟩⟩

/-- A proof with a best block names it in every vote. -/
theorem namesBest (hr : RecordOk r t) (hz : r.proof.bestBlock ≠ BlockId.zero) :
    r.proof.NamesBest := by
  obtain ⟨h, hh, hbest, hp⟩ := hr.best.resolve_left (hz ·.1)
  refine ProofType.namesBest_of_msgs hp fun m hm => ?_
  obtain ⟨h', hh', hm⟩ := hr.precommits m hm
  rw [hbest, hm, Option.some.inj (hh'.symm.trans hh)]

end RecordOk

/-! ## What the engine keeps of the proofs -/

/-- Every prevote in the tree covers its node, every proof the engine cached or sent
names its best block, and every block it published has a proof that certifies it. -/
structure ProofsKept (e : Randpa) : Prop where
  conf : e.prefixTree.ConfOk
  cached : ∀ p ∈ e.lastProofs, p.NamesBest
  sent : ∀ x ∈ e.outbox, x.ProofOk
  certified : ∀ b ∈ published e.outbox, ∃ p : ProofType, p.bestBlock = b ∧ p.Certifies e.prefixTree

/-- A round whose record is right, with the engine it calls back. -/
structure Recorded (r : RandpaRound) (e : Randpa) : Prop where
  kept : ProofsKept e
  record : RecordOk r e.prefixTree

namespace ProofsKept

variable {e e' : Randpa}

/-- A step whose tree keeps the certificates, that keeps the cached proofs, and adds only
outputs that publish nothing and whose proofs name their best block. -/
theorem frame (hk : ProofsKept e) (hc : e'.prefixTree.ConfOk)
    (hg : ∀ p : ProofType, p.Certifies e.prefixTree → p.Certifies e'.prefixTree)
    (hl : e'.lastProofs = e.lastProofs)
    (ho : ∃ out, e'.outbox = e.outbox ++ out ∧ (∀ x ∈ out, x.ProofOk) ∧ published out = []) :
    ProofsKept e' := by
  obtain ⟨out, ho, hout, hpub⟩ := ho
  refine ⟨hc, hl ▸ hk.cached, fun x hx => ?_, fun b hb => ?_⟩
  · rcases List.mem_append.1 (ho ▸ hx) with hx | hx
    exacts [hk.sent x hx, hout x hx]
  · rw [ho, published_append, hpub, List.append_nil] at hb
    obtain ⟨p, hp, hcp⟩ := hk.certified b hb
    exact ⟨p, hp, hg p hcp⟩

theorem send (hk : ProofsKept e) (s : UInt32) {d : NetMsgData} (hd : d.ProofOk) :
    ProofsKept (e.send s d) :=
  hk.frame hk.conf (fun _ => id) rfl ⟨_, rfl, by simpa [RandpaOutput.ProofOk] using hd, rfl⟩

theorem bcast (hk : ProofsKept e) {d : NetMsgData} (hd : d.ProofOk) : ProofsKept (e.bcast d) := by
  unfold Randpa.bcast
  split
  · exact hk
  · refine hk.frame hk.conf (fun _ => id) rfl
      ⟨_, rfl, by simpa [RandpaOutput.ProofOk] using fun _ _ => hd, ?_⟩
    simp only [published, List.filterMap_map]
    exact List.filterMap_eq_nil_iff.2 fun _ _ => rfl

/-- A proof gained is cached and its block published: it must name its best block and
certify it. -/
theorem onProofGained (hk : ProofsKept e) {p : ProofType} (hp : p.NamesBest)
    (hc : p.Certifies e.prefixTree) : ProofsKept (e.onProofGained p) := by
  simp only [Randpa.onProofGained]
  refine ProofsKept.bcast ?_ trivial
  refine ⟨hk.conf, fun q hq => ?_, fun x hx => ?_, fun b hb => ?_⟩
  · rcases List.mem_cons.1 (List.mem_of_mem_take hq) with rfl | hq
    exacts [hp, hk.cached q hq]
  · rcases List.mem_append.1 hx with hx | hx
    · exact hk.sent x hx
    · rw [List.mem_singleton.1 hx]; trivial
  · rw [published_append, published_finality] at hb
    rcases List.mem_append.1 hb with hb | hb
    · exact hk.certified b hb
    · exact ⟨p, (List.mem_singleton.1 hb).symm, hc⟩

theorem updateLib (hk : ProofsKept e) (id : BlockId) : ProofsKept (e.updateLib id) :=
  hk.frame (Randpa.confOk_updateLib hk.conf id) (fun _ hc => hc.grows (e.grows_updateLib id)) rfl ⟨[], by simp, nofun, rfl⟩

end ProofsKept

/-! ## The round's methods -/

namespace RecordOk

variable {r : RandpaRound} {t : PrefixChainTree}

/-- A round moved to a state past the prevote phase. -/
theorem setState (hr : RecordOk r t) {s : StateType} (hs : s ≠ .init ∧ s ≠ .prevote) :
    RecordOk (r.setState s) t :=
  hr.congr rfl rfl fun h => absurd h (by simpa [RandpaRound.setState] using hs)

/-- A precommit of one key for the best node's block, added past the prevote phase. -/
theorem addPrecommit (hr : RecordOk r t) (hs : r.state ≠ .init ∧ r.state ≠ .prevote)
    {msg : PrecommitMsg} (hb : ∃ h, r.bestNode = some h ∧ msg.data.blockId = t.blockIdOf h)
    {k : PublicKey} (hk : msg.publicKeys = [k]) :
    RecordOk { r with precommitedKeys := r.precommitedKeys.insert k
                      proof := { r.proof with precommits := r.proof.precommits ++ [msg] } } t := by
  refine ⟨hr.best_lt, fun h => absurd h (by simpa using hs), fun m hm => ?_, fun m hm => ?_, hr.best⟩
  · rcases List.mem_append.1 hm with hm | hm
    · exact hr.precommits m hm
    · exact List.mem_singleton.1 hm ▸ hb
  · rcases List.mem_append.1 hm with hm | hm
    · exact hr.keyed m hm
    · exact ⟨k, List.mem_singleton.1 hm ▸ hk⟩

/-- `end_prevote` sets the best block to the best node's, and takes the prevotes there. -/
theorem endPrevote (hr : RecordOk r t) (hc : t.ConfOk) (hs : r.state = .readyToPrecommit)
    {n : Nat} (hn : r.bestNode = some n) :
    RecordOk { r with proof := { r.proof with
      roundNum := r.num
      bestBlock := (t.nodeAt n).blockId
      prevotes := r.proof.prevotes ++ (t.nodeAt n).confirmationData.values } } t := by
  refine ⟨hr.best_lt, fun h => absurd h (by simp [hs]), hr.precommits, hr.keyed,
    .inr ⟨n, hn, rfl, fun m hm => ?_⟩⟩
  rcases List.mem_append.1 hm with hm | hm
  · rcases hr.best with ⟨-, hp⟩ | ⟨h, hh, hbest, hp⟩
    · simp [hp] at hm
    · rw [Option.some.inj (hh.symm.trans hn)] at hbest
      show m.data.Covers (t.blockIdOf n)
      exact hbest ▸ hp m hm
  · exact hc n m hm

end RecordOk

namespace RandpaRound

/-- What `is_precommit_threshold_reached` tells once it holds. -/
theorem precommits_gt_of_threshold {r : RandpaRound} {t : PrefixChainTree}
    (h : r.isPrecommitThresholdReached t = .ok true) (n : Nat) (hn : r.bestNode = some n) :
    r.proof.precommits.length > 2 * (t.nodeAt n).activeBpKeys.size / 3 := by
  simpa [isPrecommitThresholdReached, hn] using h

/-- `finish_round` called back by a round that is done and past the precommit threshold
keeps the round, and a proof it gains names its best block and certifies it: a proof above
the last irreversible block has a best block. -/
theorem finishRound_recorded {r r' : RandpaRound} {e e' : Randpa} (hd : r.state = .done)
    (hr : Recorded r e)
    (hth : ∀ h, r.bestNode = some h →
      r.proof.precommits.length > 2 * (e.prefixTree.nodeAt h).activeBpKeys.size / 3)
    (hf : e.finishRound r = .ok (r', e')) : r' = r ∧ Recorded r' e' := by
  have hfin : r.finish = (true, r) := by simp [finish, hd]
  have hp : r.getProof = .ok r.proof := by simp [getProof, hd]
  simp only [Randpa.finishRound, hfin, hp, except_ok_bind] at hf
  split at hf <;> cases hf
  · rename_i hlt
    have hz : r.proof.bestBlock ≠ BlockId.zero := fun hz => Nat.not_lt_zero _ (hz ▸ hlt)
    have hn := hr.record.namesBest hz
    obtain ⟨h, hh, hbest, -⟩ := hr.record.best.resolve_left (hz ·.1)
    have hc : r.proof.Certifies e.prefixTree := by
      refine ⟨h, hr.record.best_lt h hh, hbest.symm, hn.2, ?_⟩
      rw [length_signedVotes hr.record.keyed]
      exact hth h hh
    refine ⟨rfl, (hr.kept.onProofGained hn hc).updateLib _, ?_⟩
    exact hr.record.grows (by simpa using (e.onProofGained r.proof).grows_updateLib r.proof.bestBlock)
  · exact ⟨rfl, hr⟩

/-- A prevote added in the prevote phase or after the threshold keeps the record; a round
past the threshold keeps its best node. -/
theorem addPrevote_recorded {r r' : RandpaRound} {e e' : Randpa} {data : PrevoteType}
    {k : PublicKey} (hs : r.state = .prevote ∨ r.state = .readyToPrecommit) (hr : Recorded r e)
    (ha : r.addPrevote ⟨data, [k]⟩ e = .ok (r', e')) :
    Recorded r' e' ∧ (r'.state = .prevote ∨ r'.state = .readyToPrecommit) := by
  cases ht : e.prefixTree.confirmationTarget ⟨data.baseBlock, data.blocks⟩ with
  | none =>
    simp [addPrevote, NetworkMsg.publicKeys, PrefixChainTree.addConfirmations, ht] at ha
  | some h =>
    have hsh := e.prefixTree.sameShape_modifyConf h (·.emplace k ⟨data, [k]⟩)
    have hk : ProofsKept { e with prefixTree := e.prefixTree.modifyConf h (·.emplace k ⟨data, [k]⟩) } :=
      hr.kept.frame (hr.kept.conf.modifyConf (PrefixChainTree.confirmationTarget_covers ht))
        (fun _ hc => hc.sameShape hsh) rfl ⟨[], by simp, nofun, rfl⟩
    simp only [addPrevote, NetworkMsg.publicKeys, PrefixChainTree.addConfirmations_of_target ht] at ha
    split at ha <;> cases ha
    · rename_i hth
      simp only [Bool.and_eq_true, decide_eq_true_eq] at hth
      obtain ⟨h1, h2, h3⟩ := hr.record.early (.inr (hs.resolve_right hth.1))
      have hlt := hsh.length_eq ▸ PrefixChainTree.inTree_lt (PrefixChainTree.confirmationTarget_spec ht)
      refine ⟨⟨hk, fun _ hh => Option.some.inj hh ▸ hlt, fun h => absurd h (by simp), ?_, ?_,
        .inl ⟨h2, h3⟩⟩, .inr rfl⟩ <;> intro m hm <;> simp [h1] at hm
    · exact ⟨⟨hk, (hr.record.sameShape hsh).congr rfl rfl id⟩, hs⟩

theorem onPrevoteLoop_recorded (msg : PrevoteMsg) :
    ∀ (ks : List PublicKey) {r r' : RandpaRound} {e e' : Randpa},
      r.state = .prevote ∨ r.state = .readyToPrecommit → Recorded r e →
      onPrevoteLoop msg ks r e = .ok (r', e') → Recorded r' e'
  | [], _, _, _, _, _, hr, hl => by cases hl; exact hr
  | k :: ks, r, r', e, e', hs, hr, hl => by
    unfold onPrevoteLoop at hl
    split at hl
    · obtain ⟨⟨r1, e1⟩, h1, h2⟩ := except_bind_eq_ok.1 hl
      obtain ⟨hr1, hs1⟩ := addPrevote_recorded hs hr h1
      exact onPrevoteLoop_recorded msg ks hs1 hr1 h2
    · exact onPrevoteLoop_recorded msg ks hs hr hl

theorem prevoteLoop_recorded (data : PrevoteType) :
    ∀ (ps : List PublicKey) {r r' : RandpaRound} {e e' : Randpa},
      r.state = .prevote ∨ r.state = .readyToPrecommit → Recorded r e →
      prevoteLoop data ps r e = .ok (r', e') → Recorded r' e'
  | [], _, _, _, _, _, hr, hl => by cases hl; exact hr
  | p :: ps, r, r', e, e', hs, hr, hl => by
    obtain ⟨⟨r1, e1⟩, h1, h2⟩ := except_bind_eq_ok.1 hl
    obtain ⟨hr1, hs1⟩ := addPrevote_recorded hs hr h1
    exact prevoteLoop_recorded data ps hs1 hr1 h2

/-- A precommit for the best node's block, added past the prevote phase, keeps the record
and stays in the proof. -/
theorem addPrecommit_recorded {r r' : RandpaRound} {e e' : Randpa} {msg : PrecommitMsg}
    (hs : r.state ≠ .init ∧ r.state ≠ .prevote) (hr : Recorded r e)
    (ha : r.addPrecommit msg e = .ok (r', e'))
    (hb : ∃ h, r.bestNode = some h ∧ msg.data.blockId = e.prefixTree.blockIdOf h) :
    Recorded r' e' ∧ (r'.state ≠ .init ∧ r'.state ≠ .prevote) ∧ msg ∈ r'.proof.precommits := by
  unfold addPrecommit at ha
  split at ha
  · rename_i k hk
    have hr1 := hr.record.addPrecommit hs hb hk
    dsimp only at ha
    split at ha
    · cases ha; exact ⟨⟨hr.kept, hr1⟩, hs, by simp⟩
    · obtain ⟨reached, hth, ha⟩ := except_bind_eq_ok.1 ha
      split at ha
      · rename_i hreached
        subst hreached
        obtain ⟨rfl, hf⟩ := finishRound_recorded rfl
          ⟨hr.kept, hr1.setState ⟨nofun, nofun⟩⟩ (precommits_gt_of_threshold hth) ha
        exact ⟨hf, ⟨nofun, nofun⟩, by simp [setState]⟩
      · cases ha; exact ⟨⟨hr.kept, hr1⟩, hs, by simp⟩
  · cases ha

/-- A precommit that `validate_precommit` accepts is for the best node's block. -/
theorem validatePrecommit_best {r : RandpaRound} {t : PrefixChainTree} {msg : PrecommitMsg}
    {k : PublicKey} (hv : r.validatePrecommit t msg k = .ok true) :
    ∃ h, r.bestNode = some h ∧ msg.data.blockId = t.blockIdOf h := by
  unfold validatePrecommit at hv
  split at hv
  · cases hv
  split at hv
  · cases hv
  split at hv
  · cases hv
  · rename_i h hh
    simp only [Except.ok.injEq, Bool.and_eq_true, beq_iff_eq] at hv
    exact ⟨h, hh, hv.1⟩

theorem onPrecommitLoop_recorded (msg : PrecommitMsg) :
    ∀ (ks : List PublicKey) {r r' : RandpaRound} {e e' : Randpa},
      r.state ≠ .init ∧ r.state ≠ .prevote → Recorded r e →
      onPrecommitLoop msg ks r e = .ok (r', e') → Recorded r' e'
  | [], _, _, _, _, _, hr, hl => by cases hl; exact hr
  | k :: ks, r, r', e, e', hs, hr, hl => by
    obtain ⟨b, hv, hl⟩ := except_bind_eq_ok.1 hl
    split at hl
    · rename_i hb
      subst hb
      obtain ⟨⟨r1, e1⟩, h1, h2⟩ := except_bind_eq_ok.1 hl
      obtain ⟨hr1, hs1, -⟩ := addPrecommit_recorded hs hr h1 (validatePrecommit_best hv)
      exact onPrecommitLoop_recorded msg ks hs1 hr1 h2
    · exact onPrecommitLoop_recorded msg ks hs hr hl

theorem precommitLoop_recorded (data : PrecommitType) :
    ∀ (ps : List PublicKey) {r r' : RandpaRound} {e e' : Randpa},
      r.state ≠ .init ∧ r.state ≠ .prevote →
      (∃ h, r.bestNode = some h ∧ data.blockId = e.prefixTree.blockIdOf h) → Recorded r e →
      precommitLoop data ps r e = .ok (r', e') → Recorded r' e'
  | [], _, _, _, _, _, _, hr, hl => by cases hl; exact hr
  | p :: ps, r, r', e, e', hs, hb, hr, hl => by
    obtain ⟨⟨r1, e1⟩, h1, h2⟩ := except_bind_eq_ok.1 hl
    obtain ⟨hr1, hs1, hm⟩ := addPrecommit_recorded hs hr h1 hb
    exact precommitLoop_recorded data ps hs1 (hr1.record.precommits _ hm) hr1 h2

/-- A method of the round that keeps the record. -/
def KeepsRecord (f : RandpaRound → Randpa → Except RandpaError (RandpaRound × Randpa)) : Prop :=
  ∀ r e r' e', Recorded r e → f r e = .ok (r', e') → Recorded r' e'

theorem onPrevote_recorded (msg : PrevoteMsg) : KeepsRecord (onPrevote msg) := fun r e r' e' hr h => by
  unfold onPrevote at h
  split at h
  · cases h; exact hr
  · rename_i hs
    refine onPrevoteLoop_recorded msg _ ?_ hr h
    by_cases hp : r.state = .prevote
    · exact .inl hp
    · exact .inr (by simpa [hp] using hs)

theorem onPrecommit_recorded (msg : PrecommitMsg) : KeepsRecord (onPrecommit msg) :=
  fun r e r' e' hr h => by
    unfold onPrecommit at h
    split at h
    · cases h; exact hr
    · rename_i hs
      refine onPrecommitLoop_recorded msg _ ?_ hr h
      by_cases hp : r.state = .precommit
      · simp [hp]
      · have : r.state = .readyToPrecommit := by simpa [hp] using hs
        simp [this]

theorem precommit_recorded : KeepsRecord precommit := fun r e r' e' hr h => by
  unfold precommit at h
  split at h
  · cases h
  · dsimp only at h
    split at h
    · cases h
    · rename_i n hn
      obtain ⟨⟨r1, e1⟩, h1, h2⟩ := except_bind_eq_ok.1 h
      cases h2
      have h1 := precommitLoop_recorded _ _ (by simp [setState]) ⟨n, hn, rfl⟩
        ⟨hr.kept, hr.record.setState ⟨nofun, nofun⟩⟩ h1
      exact ⟨h1.kept.bcast trivial, by simpa using h1.record⟩

theorem endPrevote_recorded : KeepsRecord endPrevote := fun r e r' e' hr h => by
  unfold endPrevote at h
  split at h
  · cases h; exact ⟨hr.kept, hr.record.setState ⟨nofun, nofun⟩⟩
  next hs =>
    dsimp only at h
    split at h
    · cases h
    next n hn =>
      exact precommit_recorded _ _ _ _
        ⟨hr.kept, hr.record.endPrevote hr.kept.conf (not_not.1 hs) hn⟩ h

theorem prevote_recorded : KeepsRecord prevote := fun r e r' e' hr h => by
  unfold prevote at h
  split at h
  · cases h
  · rename_i hs
    have hr1 : Recorded (r.setState .prevote) e :=
      ⟨hr.kept, hr.record.congr rfl rfl fun _ => .inl (not_not.1 hs)⟩
    dsimp only at h
    split at h
    · cases h; exact hr1
    · obtain ⟨⟨r1, e1⟩, h1, h2⟩ := except_bind_eq_ok.1 h
      cases h2
      have h1 := prevoteLoop_recorded _ _ (.inl rfl) hr1 h1
      exact ⟨h1.kept.bcast trivial, by simpa using h1.record⟩

end RandpaRound

/-! ## The engine's handlers -/

/-- The engine's proofs: what `ProofsKept` says, and the record of its round. -/
def ProofsHeld (e : Randpa) : Prop :=
  ProofsKept e ∧ ∀ r, e.round = some r → RecordOk r e.prefixTree

namespace ProofsHeld

variable {e e' : Randpa}

/-- A step that keeps the tree and the round. -/
theorem frame (h : ProofsHeld e) (hk : ProofsKept e') (ht : e'.prefixTree = e.prefixTree)
    (hr : e'.round = e.round) : ProofsHeld e' :=
  ⟨hk, fun r hr' => ht ▸ h.2 r (hr ▸ hr')⟩

/-- A step that changes none of the fields the invariant reads. -/
theorem of_fields (h : ProofsHeld e) (ht : e'.prefixTree = e.prefixTree) (hr : e'.round = e.round)
    (hl : e'.lastProofs = e.lastProofs) (ho : e'.outbox = e.outbox) : ProofsHeld e' :=
  h.frame (h.1.frame (ht ▸ h.1.conf) (fun _ hc => ht ▸ hc) hl ⟨[], by simp [ho], nofun, rfl⟩) ht hr

theorem send (h : ProofsHeld e) (s : UInt32) {d : NetMsgData} (hd : d.ProofOk) :
    ProofsHeld (e.send s d) :=
  h.frame (h.1.send s hd) rfl rfl

theorem foldl {α : Type} {f : Randpa → α → Randpa} (hf : ∀ e a, ProofsHeld e → ProofsHeld (f e a)) :
    ∀ (l : List α) {e : Randpa}, ProofsHeld e → ProofsHeld (l.foldl f e)
  | [], _, h => h
  | a :: l, _, h => foldl hf l (hf _ a h)

end ProofsHeld

namespace Randpa

theorem callRound_held {f : RandpaRound → Randpa → Except RandpaError (RandpaRound × Randpa)}
    (hf : RandpaRound.KeepsRecord f) {e e' : Randpa} (h : ProofsHeld e) (hc : e.callRound f = .ok e') :
    ProofsHeld e' := by
  unfold callRound at hc
  split at hc
  · cases hc; exact h
  · rename_i r hr
    obtain ⟨⟨r1, e1⟩, h1, h2⟩ := except_bind_eq_ok.1 hc
    cases h2
    have := hf r e r1 e1 ⟨h.1, h.2 r hr⟩ h1
    exact ⟨⟨this.kept.conf, this.kept.cached, this.kept.sent, this.kept.certified⟩,
      fun r' hr' => Option.some.inj hr' ▸ this.record⟩

theorem processRoundMsg_held {f : RandpaRound → Randpa → Except RandpaError (RandpaRound × Randpa)}
    (hf : RandpaRound.KeepsRecord f) {e e' : Randpa} {data : NetMsgData} {n : UInt32}
    (hd : data.ProofOk) (h : ProofsHeld e) (hp : e.processRoundMsg data n f = .ok e') : ProofsHeld e' := by
  unfold processRoundMsg at hp
  split at hp
  · cases hp; exact h
  split at hp
  · cases hp; exact h
  have h1 : ProofsHeld { e with selfMessages := e.selfMessages.insert data } :=
    h.of_fields rfl rfl rfl rfl
  refine callRound_held hf ?_ hp
  split
  · exact h1.frame (h1.1.bcast hd) (by simp) (by simp)
  · exact h1

theorem markDone_held {e : Randpa} (h : ProofsHeld e) (n : UInt32) : ProofsHeld (e.markDone n) := by
  unfold markDone
  split
  · split
    · rename_i r hr _
      refine ⟨h.1.frame h.1.conf (fun _ => id) rfl ⟨[], by simp, nofun, rfl⟩, fun r' hr' => ?_⟩
      exact Option.some.inj hr' ▸ (h.2 r hr).setState ⟨nofun, nofun⟩
    · exact h
  · exact h

theorem onProof_held {e : Randpa} (h : ProofsHeld e) (m : ProofMsg) : ProofsHeld (e.onProof m) := by
  rcases e.onProof_cases m with hm | ⟨hv, -, -, -, hm⟩
  · rw [hm]; exact h
  · rw [hm]
    have h1 := markDone_held h m.data.roundNum
    have hc : m.data.Certifies (e.markDone m.data.roundNum).prefixTree := by
      rw [markDone_prefixTree]
      exact ProofType.certifies_of_validateProof hv
    exact h1.frame (h1.1.onProofGained (ProofType.namesBest_of_validateProof hv) hc) (by simp) (by simp)

theorem removeRound_held {e : Randpa} (h : ProofsHeld e) : ProofsHeld e.removeRound :=
  ⟨h.1.frame (PrefixChainTree.confOk_removeConfirmations _)
      (fun _ hc => hc.sameShape (PrefixChainTree.sameShape_removeConfirmations _)) rfl
      ⟨[], by simp [removeRound], nofun, rfl⟩,
    nofun⟩

theorem newRound_held {e e' : Randpa} {num : UInt32} {primary : PublicKey} {active : KeySet}
    (h : ProofsHeld e) (hn : e.newRound num primary active = .ok e') : ProofsHeld e' := by
  obtain ⟨⟨r, e1⟩, h1, h2⟩ := except_bind_eq_ok.1 hn
  cases h2
  have := RandpaRound.prevote_recorded _ _ _ _ ⟨h.1, RecordOk.create _ _ _ _⟩ h1
  exact ⟨⟨this.kept.conf, this.kept.cached, this.kept.sent, this.kept.certified⟩,
    fun r' hr' => Option.some.inj hr' ▸ this.record⟩

theorem startRound_held {e e' : Randpa} {ev : OnAcceptedBlockEvent} (h : ProofsHeld e)
    (hs : e.startRound ev = .ok e') : ProofsHeld e' := by
  unfold startRound at hs
  split at hs
  · split at hs
    · exact newRound_held (removeRound_held h) hs
    · cases hs; exact removeRound_held h
  · cases hs; exact h

theorem scheduleRound_held {e e' : Randpa} {ev : OnAcceptedBlockEvent} (h : ProofsHeld e)
    (hs : e.scheduleRound ev = .ok e') : ProofsHeld e' := by
  unfold scheduleRound at hs
  split at hs
  · cases hs; exact h
  · obtain ⟨e1, h1, h2⟩ := except_bind_eq_ok.1 hs
    have h1 := startRound_held h h1
    split at h2
    · exact callRound_held RandpaRound.endPrevote_recorded h1 h2
    · cases h2; exact h1

theorem onAcceptedBlock_held {e e' : Randpa} {ev : OnAcceptedBlockEvent} (h : ProofsHeld e)
    (ha : e.onAcceptedBlock ev = .ok e') : ProofsHeld e' := by
  unfold onAcceptedBlock at ha
  split at ha
  · cases ha; exact h
  · rename_i tree hi
    refine scheduleRound_held ?_ ha
    exact ⟨h.1.frame (h.1.conf.insert hi) (fun _ hc => hc.grows (PrefixChainTree.grows_insert hi).1) rfl ⟨[], by simp, nofun, rfl⟩,
      fun r hr => (h.2 r hr).grows (PrefixChainTree.grows_insert hi).1⟩

theorem onIrreversible_held {e : Randpa} (h : ProofsHeld e) (id : BlockId) :
    ProofsHeld (e.onIrreversible id) := by
  unfold onIrreversible
  split
  · exact h
  · exact ⟨h.1.updateLib id, fun r hr => (h.2 r hr).grows (e.grows_updateLib id)⟩

theorem onFinalityReqProof_held {e : Randpa} (h : ProofsHeld e) (s : UInt32) (m : FinalityReqProofMsg) :
    ProofsHeld (e.onFinalityReqProof s m) := by
  unfold onFinalityReqProof
  split
  · rename_i p hp
    exact h.send s (h.1.cached p (List.mem_of_find?_eq_some hp))
  · exact h

theorem processNetMsg_held {e e' : Randpa} {now : Nat} {msg : RandpaNetMsg} (h : ProofsHeld e)
    (hp : e.processNetMsg now msg = .ok e') : ProofsHeld e' := by
  unfold processNetMsg at hp
  split at hp
  · cases hp; exact h
  · split at hp
    · exact processRoundMsg_held (RandpaRound.onPrevote_recorded _) (by trivial) h hp
    · exact processRoundMsg_held (RandpaRound.onPrecommit_recorded _) (by trivial) h hp
    all_goals cases hp
    · unfold onFinalityNotice
      split
      · exact h
      · exact h.send _ (by trivial)
    · exact onFinalityReqProof_held h _ _
    · exact onProof_held h _
    · unfold onHandshake
      refine ProofsHeld.foldl (fun _ _ h => ?_) _ h
      refine ProofsHeld.send ?_ _ ?_
      · exact h.of_fields rfl rfl rfl rfl
      · trivial
    · unfold onHandshakeAns
      refine ProofsHeld.foldl (fun _ _ h => ?_) _ h
      exact h.of_fields rfl rfl rfl rfl

/-- Every handled message keeps the proofs as `ProofsHeld` says. -/
theorem processMsg_held {e e' : Randpa} {now : Nat} {m : RandpaMessage} (h : ProofsHeld e)
    (hp : e.processMsg now m = .ok e') : ProofsHeld e' := by
  match m, hp with
  | .net _, hp => exact processNetMsg_held h hp
  | .event (.onAcceptedBlock _), hp => exact onAcceptedBlock_held h hp
  | .event (.onIrreversible id), hp => cases hp; exact onIrreversible_held h id
  | .event (.onNewPeer s), hp => cases hp; exact h.send s (by trivial)

end Randpa

theorem ReachableFrom.proofsHeld {M : RandpaMessage → Prop} {e : Randpa}
    (h : ReachableFrom PrefixChainTree.ConfOk M e) : ProofsHeld e := by
  induction h with
  | start ht hc hs =>
    obtain ⟨_, _, _, _, rfl⟩ := hc.start_eq hs
    exact ⟨⟨ht, nofun, nofun, nofun⟩, nofun⟩
  | step _ _ hs ih => exact Randpa.processMsg_held ih hs

/-! ## The block tests pass -/

/-- `validate_prevote` and `validate_precommit` test only the key of each signed vote of
the proof, against any set of active keys. -/
def ProofType.BlockTestsPass (p : ProofType) : Prop :=
  (∀ v ∈ Randpa.signedVotes p.prevotes, ∀ keys,
      Randpa.validatePrevote v.1 v.2 p.bestBlock keys = decide (v.2 ∈ keys)) ∧
    ∀ v ∈ Randpa.signedVotes p.precommits, ∀ keys,
      Randpa.validatePrecommit v.1 v.2 p.bestBlock keys = decide (v.2 ∈ keys)

theorem ProofType.NamesBest.blockTestsPass {p : ProofType} (hp : p.NamesBest) : p.BlockTestsPass :=
  ⟨fun v hv => validatePrevote_of_covers (hp.1 v hv) v.2,
    fun v hv => validatePrecommit_of_eq (hp.2 v hv) v.2⟩

/-- From a start on a tree whose prevotes cover their nodes, in every reachable state: every
proof cached for `on(finality_req_proof_msg)`, every proof sent, and the round's own proof
once `end_prevote` has set its best block pass the block tests of `validate_prevote` and
`validate_precommit`, so `validate_proof` can turn such a proof down only for its keys. The
round's part is conditioned on its best block, not on its state: a round ready to precommit
takes precommits, and enough of them make it done without `end_prevote`, so with the zero best
block. -/
theorem proofs_pass_block_tests {M : RandpaMessage → Prop} {e : Randpa}
    (h : ReachableFrom PrefixChainTree.ConfOk M e) :
    (∀ p ∈ e.lastProofs, p.BlockTestsPass) ∧
    (∀ s m, RandpaOutput.send s (.proof m) ∈ e.outbox → m.data.BlockTestsPass) ∧
    (∀ r, e.round = some r → r.proof.bestBlock ≠ BlockId.zero → r.proof.BlockTestsPass) := by
  obtain ⟨hk, hr⟩ := h.proofsHeld
  refine ⟨fun p hp => (hk.cached p hp).blockTestsPass, fun s m hm => ?_,
    fun r hr' hz => ((hr r hr').namesBest hz).blockTestsPass⟩
  exact (hk.sent _ hm : m.data.NamesBest).blockTestsPass

theorem PrefixChainTree.confOk_single (id : BlockId) : (single id).ConfOk := by
  intro h v hv
  cases h <;> simp [single, nodeAt, default, KeyMap.values, KeyMap.empty] at hv

theorem reachableFrom_producerOne : ReachableFrom PrefixChainTree.ConfOk (fun _ => True) producerOne :=
  @ReachableFrom.start _ _ (.single BlockId.zero) _ _ (PrefixChainTree.confOk_single _)
    configured_producerOne rfl

theorem proofs_pass_block_tests_provedState :
    provedState.lastProofs.map (·.bestBlock) = [chainBlock 1] ∧
      RandpaOutput.send 7 (.proof ⟨provedState.lastProofs.headD {}, [1]⟩) ∈ provedState.outbox ∧
      (provedState.lastProofs.headD {}).BlockTestsPass :=
  have hm : RandpaOutput.send 7 (.proof ⟨provedState.lastProofs.headD {}, [1]⟩) ∈ provedState.outbox := by
    decide
  ⟨by decide, hm,
    (proofs_pass_block_tests (reachableFrom_producerOne.loop_getD fun _ _ => trivial)).2.1 7 _ hm⟩

/-! ## Every published block has a certificate -/

end randpa_finality
