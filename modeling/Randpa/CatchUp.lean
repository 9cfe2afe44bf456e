-- Catching up on finality. An engine that gains a proof broadcasts a finality notice; a
-- peer behind that proof asks for it on the session the notice came from, checks the proof
-- it gets back and publishes its block. Along a chain of peers each behind the proof, the
-- proof goes from engine to engine, three messages a hop, and every engine of the chain
-- publishes the block.
import Randpa.Cluster
import Randpa.Supermajority

namespace randpa_finality

/-- The finality notice of proof `p` signed with `ks`, as `on_proof_gained` broadcasts it. -/
def ProofType.notice (p : ProofType) (ks : List PublicKey) : NetMsgData :=
  .finalityNotice ⟨⟨p.roundNum, p.bestBlock⟩, ks⟩

/-! ## What the exchange asks of the engines -/

namespace Randpa

/-- An engine behind proof `p`: the tests of `on(proof_msg)` pass. It is neither syncing nor
frozen, its last proved block and its last irreversible block are below the proof's block,
its round is not done, and it accepts the proof over its own tree. -/
structure Behind (e : Randpa) (p : ProofType) : Prop where
  flags : (e.isSyncing || e.isFrozen) = false
  proved : e.lastProovedBlockNum < getBlockNum p.bestBlock
  lib : getBlockNum e.lib < getBlockNum p.bestBlock
  round : e.round.any (·.state == .done) = false
  valid : e.validateProof p = true

/-- Engine `e` passes its notice of `p` on to engine `k`: the session of `k` is one of its
peers', and it has not broadcast that notice yet. -/
structure Forwards (e : Randpa) (p : ProofType) (k : Nat) : Prop where
  peer : k.toUInt32 ∈ e.peers.values
  fresh : e.peerMessages.contains (p.notice e.signatureProviders) = false

variable {e : Randpa} {p : ProofType}

theorem Behind.send (hb : e.Behind p) (s : UInt32) (d : NetMsgData) : (e.send s d).Behind p :=
  ⟨hb.flags, hb.proved, hb.lib, hb.round, hb.valid⟩

@[simp] theorem bcast_lastProofs (d : NetMsgData) : (e.bcast d).lastProofs = e.lastProofs := by
  unfold bcast; split <;> rfl

@[simp] theorem bcast_signatureProviders (d : NetMsgData) :
    (e.bcast d).signatureProviders = e.signatureProviders := by
  unfold bcast; split <;> rfl

@[simp] theorem markDone_signatureProviders (n : UInt32) :
    (e.markDone n).signatureProviders = e.signatureProviders := by
  unfold markDone; split <;> (try split) <;> rfl

/-! ## The three handlers of the exchange -/

/-- A message that arrives at time 0 and is handled at time 0 has not expired. -/
theorem not_expired_at_zero :
    ¬(((0 : Nat) : Int) - ((0 : Nat) : Int) * 1000000 > (msgExpirationMs : Int) * 1000) := by
  decide

/-- A notice of a block above the last proved one is answered with a request for the proof,
on the session it came from. -/
theorem processNetMsg_notice (s : UInt32) {m : FinalityNoticeMsg}
    (hlt : e.lastProovedBlockNum < getBlockNum m.data.bestBlock) :
    e.processNetMsg 0 ⟨s, .finalityNotice m, 0⟩ =
      .ok (e.send s (.finalityReqProof ⟨⟨m.data.roundNum⟩, e.signatureProviders⟩)) := by
  rw [processNetMsg, if_neg not_expired_at_zero]
  simp [onFinalityNotice, UInt32.not_le.2 hlt]

/-- A request is answered with the first cached proof of its round. -/
theorem processNetMsg_reqProof (s : UInt32) {m : FinalityReqProofMsg}
    (hp : e.lastProofs.find? (·.roundNum == m.data.roundNum) = some p) :
    e.processNetMsg 0 ⟨s, .finalityReqProof m, 0⟩ = .ok (e.send s (.proof ⟨p, e.signatureProviders⟩)) := by
  rw [processNetMsg, if_neg not_expired_at_zero]
  simp [onFinalityReqProof, hp]

/-- An engine behind a proof gains it. -/
theorem processNetMsg_proof (s : UInt32) (hb : e.Behind p) (ks : List PublicKey) :
    e.processNetMsg 0 ⟨s, .proof ⟨p, ks⟩, 0⟩ = .ok ((e.markDone p.roundNum).onProofGained p) := by
  rw [processNetMsg, if_neg not_expired_at_zero]
  simp [onProof, hb.flags, UInt32.not_le.2 hb.proved, UInt32.not_le.2 hb.lib, hb.round, hb.valid]

/-- A proof gained is the first cached proof of its round. -/
theorem find_lastProofs_onProofGained (p : ProofType) :
    (e.onProofGained p).lastProofs.find? (·.roundNum == p.roundNum) = some p := by
  simp [onProofGained, proofsCacheSize]

/-- A proof gained is announced to every peer that has not had its notice yet. -/
theorem notice_mem_onProofGained {k : Nat} (hf : e.Forwards p k) :
    RandpaOutput.send k.toUInt32 (p.notice e.signatureProviders) ∈ (e.onProofGained p).outbox := by
  simp only [onProofGained, bcast, ProofType.notice]
  rw [if_neg (by simpa [ProofType.notice] using hf.fresh)]
  exact List.mem_append_right _ (List.mem_map_of_mem _ hf.peer)

@[simp] theorem onProofGained_signatureProviders (p : ProofType) :
    (e.onProofGained p).signatureProviders = e.signatureProviders := by
  simp [onProofGained]

theorem published_send (s : UInt32) (d : NetMsgData) : published (e.send s d).outbox = published e.outbox := by
  simp [send]

/-- Marking the round done after a send keeps who the engine passes its notice on to. -/
theorem Forwards.markDone_send {k : Nat} (hf : e.Forwards p k) (s : UInt32) (d : NetMsgData) (n : UInt32) :
    ((e.send s d).markDone n).Forwards p k := by
  unfold markDone
  split <;> (try split) <;> exact ⟨hf.peer, hf.fresh⟩

end Randpa

/-! ## One hop -/

namespace Cluster

/-- The providers engine `k` signs with; none for a place with no engine. -/
def providers (c : Cluster) (k : Nat) : List PublicKey :=
  (c.engines[k]?.map Randpa.signatureProviders).getD []

/-- One hop of the catch-up, with the engines signing with `ks`: engine `j` gets engine `i`'s
notice of `p`, asks `i` for the proof, and gets it. -/
def hop (ks : Nat → List PublicKey) (p : ProofType) (i j : Nat) : List ClusterStep :=
  [.deliver i j (p.notice (ks i)), .deliver j i (.finalityReqProof ⟨⟨p.roundNum⟩, ks j⟩),
    .deliver i j (.proof ⟨p, ks i⟩)]

/-- The hops from engine `i` along the chain of engines `path`. -/
def relay (ks : Nat → List PublicKey) (p : ProofType) : Nat → List Nat → List ClusterStep
  | _, [] => []
  | i, j :: path => hop ks p i j ++ relay ks p j path

variable {tree : BlockTree} {c : Cluster}

theorem run_append (ss ss' : List ClusterStep) :
    c.run tree (ss ++ ss') = (c.run tree ss).bind (·.run tree ss') := by
  induction ss generalizing c with
  | nil => rfl
  | cons s ss ih =>
    simp only [List.cons_append, run, Option.bind_assoc]
    exact congrArg _ (funext fun _ => ih)

/-- Engine `i` handles a message without failing: it is replaced by the engine it becomes. -/
theorem feed_of {i : Nat} {m : RandpaMessage} {e e' : Randpa} (h : c.engines[i]? = some e)
    (hp : e.processMsg 0 m = .ok e') : c.feed i m = some { c with engines := c.engines.set i e' } := by
  unfold feed
  split
  · rename_i hn
    rw [h] at hn
    cases hn
  · rename_i e0 he0
    obtain rfl : e0 = e := Option.some.inj (he0.symm.trans h)
    rw [hp]

/-- A message engine `src` sent engine `dst`, delivered, arriving and handled at time 0. -/
theorem step_deliver {src dst : Nat} {d : NetMsgData} {es ed ed' : Randpa}
    (hs : c.engines[src]? = some es) (hout : RandpaOutput.send dst.toUInt32 d ∈ es.outbox)
    (hd : c.engines[dst]? = some ed) (hp : ed.processNetMsg 0 ⟨src.toUInt32, d, 0⟩ = .ok ed') :
    c.step tree (.deliver src dst d) = some { c with engines := c.engines.set dst ed' } := by
  rw [step, hs]
  dsimp only
  rw [if_pos hout]
  exact feed_of hd hp

/-- One hop: the engine behind the proof gains it, the source only sends, and no other
engine changes. -/
theorem run_hop {ks : Nat → List PublicKey} {p : ProofType} {i j : Nat} {ei ej : Randpa}
    (hij : i ≠ j) (hi : c.engines[i]? = some ei) (hj : c.engines[j]? = some ej)
    (hki : ei.signatureProviders = ks i) (hkj : ej.signatureProviders = ks j)
    (hn : RandpaOutput.send j.toUInt32 (p.notice (ks i)) ∈ ei.outbox)
    (hp : ei.lastProofs.find? (·.roundNum == p.roundNum) = some p) (hb : ej.Behind p) :
    c.run tree (hop ks p i j) = some
      { c with
        engines := (c.engines.set i (ei.send j.toUInt32 (.proof ⟨p, ks i⟩))).set j
          (((ej.send i.toUInt32 (.finalityReqProof ⟨⟨p.roundNum⟩, ks j⟩)).markDone p.roundNum).onProofGained
            p) } := by
  have hlj := (List.getElem?_eq_some_iff.1 hj).1
  have hli := (List.getElem?_eq_some_iff.1 hi).1
  set ej1 := ej.send i.toUInt32 (.finalityReqProof ⟨⟨p.roundNum⟩, ks j⟩)
  set ei1 := ei.send j.toUInt32 (.proof ⟨p, ks i⟩)
  set ej2 := (ej1.markDone p.roundNum).onProofGained p
  -- the notice: `j` asks `i` for the proof
  have h1 : c.step tree (.deliver i j (p.notice (ks i))) = some { c with engines := c.engines.set j ej1 } :=
    step_deliver hi hn hj (by rw [ProofType.notice, Randpa.processNetMsg_notice _ hb.proved, hkj])
  -- the request: `i` sends the proof back
  have h2 : step tree { c with engines := c.engines.set j ej1 }
      (.deliver j i (.finalityReqProof ⟨⟨p.roundNum⟩, ks j⟩)) =
      some { c with engines := (c.engines.set j ej1).set i ei1 } :=
    step_deliver (by rw [List.getElem?_set_self hlj]) (by simp [ej1, Randpa.send])
      (by rw [List.getElem?_set_ne (Ne.symm hij)]; exact hi)
      (by rw [Randpa.processNetMsg_reqProof _ hp, hki])
  -- the proof: `j` gains it
  have h3 : step tree { c with engines := (c.engines.set j ej1).set i ei1 } (.deliver i j (.proof ⟨p, ks i⟩)) =
      some { c with engines := ((c.engines.set j ej1).set i ei1).set j ej2 } :=
    step_deliver (by rw [List.getElem?_set_self (by simpa using hli)]) (by simp [ei1, Randpa.send])
      (by rw [List.getElem?_set_ne hij, List.getElem?_set_self hlj])
      (Randpa.processNetMsg_proof _ (hb.send _ _) _)
  simp only [hop, run, h1, Option.some_bind, h2, h3]
  rw [List.set_comm _ _ _ hij.symm, List.set_set]

end Cluster

/-! ## The relay along a chain of peers -/

open Cluster in
/-- The finality proof spreads along peers that are behind it. Engine `i` holds proof `p` as
the first cached proof of its round and has sent the first engine of `path` its notice;
every engine of the chain is behind `p`, and each passes its notice on to the next. Then the
hops along the chain, three delivered messages each, all go through; every engine of the
chain publishes `p`'s block, and no other engine publishes anything. -/
theorem proof_relayed_along_peers {tree : BlockTree} {p : ProofType} :
    ∀ (path : List Nat) (c : Cluster) (i : Nat) (ei : Randpa), c.engines[i]? = some ei →
      ei.lastProofs.find? (·.roundNum == p.roundNum) = some p →
      (∀ j ∈ path.head?, RandpaOutput.send j.toUInt32 (p.notice ei.signatureProviders) ∈ ei.outbox) →
      (i :: path).Nodup → (∀ j ∈ path, ∃ e, c.engines[j]? = some e ∧ e.Behind p) →
      path.Chain' (fun j k => ∃ e, c.engines[j]? = some e ∧ e.Forwards p k) →
      ∃ c', c.run tree (relay c.providers p i path) = some c' ∧
        (∀ j ∈ path, c'.finalized j = c.finalized j ++ [p.bestBlock]) ∧
        ∀ k ∉ path, c'.finalized k = c.finalized k
  | [], c, _, _, _, _, _, _, _, _ => ⟨c, rfl, by simp, fun _ _ => rfl⟩
  | j :: path, c, i, ei, hi, hp, hn, hnd, hb, hch => by
    obtain ⟨ej, hj, hbj⟩ := hb j (List.mem_cons_self j path)
    have hi' : i ∉ j :: path := (List.nodup_cons.1 hnd).1
    have hj' : j ∉ path := (List.nodup_cons.1 (List.nodup_cons.1 hnd).2).1
    have hij : i ≠ j := fun h => hi' (h ▸ List.mem_cons_self j path)
    have hprov : ∀ {k e}, c.engines[k]? = some e → e.signatureProviders = c.providers k :=
      fun hk => by simp [providers, hk]
    set ei1 := ei.send j.toUInt32 (.proof ⟨p, c.providers i⟩)
    set ej2 := ((ej.send i.toUInt32 (.finalityReqProof ⟨⟨p.roundNum⟩, c.providers j⟩)).markDone
      p.roundNum).onProofGained p
    set c1 : Cluster := { c with engines := (c.engines.set i ei1).set j ej2 }
    have h1 : c.run tree (hop c.providers p i j) = some c1 :=
      run_hop hij hi hj (hprov hi) (hprov hj) (hprov hi ▸ hn j rfl) hp hbj
    -- engine `j` gained the proof, engine `i` sent it, and the others are as they were
    have hc1 : ∀ k, c1.engines[k]? =
        if k = j then some ej2 else if k = i then some ei1 else c.engines[k]? := by
      intro k
      split_ifs with hkj hki
      · subst hkj
        exact List.getElem?_set_self (by simpa using (List.getElem?_eq_some_iff.1 hj).1)
      · subst hki
        rw [List.getElem?_set_ne hij.symm, List.getElem?_set_self (List.getElem?_eq_some_iff.1 hi).1]
      · rw [List.getElem?_set_ne (Ne.symm hkj), List.getElem?_set_ne (Ne.symm hki)]
    have hfin1 : ∀ k, c1.finalized k = if k = j then c.finalized k ++ [p.bestBlock] else c.finalized k := by
      intro k
      simp only [finalized, hc1]
      split_ifs with hkj hki
      · simp [hkj, hj, ej2, RandpaRound.Randpa.published_onProofGained, Randpa.published_send]
      · simp [hki, hi, ei1, Randpa.published_send]
      · rfl
    have hprov1 : c1.providers = c.providers := by
      funext k
      simp only [providers, hc1]
      split_ifs with hkj hki
      · simp [hkj, hj, ej2, Randpa.send]
      · simp [hki, hi, ei1, Randpa.send]
      · rfl
    -- the rest of the chain, from `j`
    have hmem : ∀ k ∈ path, k ≠ i ∧ k ≠ j := fun k hk =>
      ⟨fun h => hi' (h ▸ List.mem_cons_of_mem j hk), fun h => hj' (h ▸ hk)⟩
    obtain ⟨c', h2, hin, hout⟩ := proof_relayed_along_peers path c1 j ej2 ((hc1 j).trans (if_pos rfl))
      (Randpa.find_lastProofs_onProofGained p)
      (fun k hk => by
        obtain ⟨e, he, hf⟩ := (List.chain'_cons'.1 hch).1 k hk
        obtain rfl : e = ej := Option.some.inj (he.symm.trans hj)
        simpa [ej2] using Randpa.notice_mem_onProofGained (hf.markDone_send _ _ p.roundNum))
      (List.nodup_cons.1 hnd).2
      (fun k hk => by
        rw [hc1, if_neg (hmem k hk).2, if_neg (hmem k hk).1]
        exact hb k (List.mem_cons_of_mem j hk))
      ((List.Chain'.iff_mem.1 (List.chain'_cons'.1 hch).2).imp fun k l ⟨hk, _, hkl⟩ => by
        rw [hc1, if_neg (hmem k hk).2, if_neg (hmem k hk).1]; exact hkl)
    refine ⟨c', ?_, ?_, ?_⟩
    · rw [relay, run_append, h1, Option.some_bind, ← hprov1]
      exact h2
    · intro k hk
      rcases List.mem_cons.1 hk with rfl | hk
      · rw [hout k hj', hfin1, if_pos rfl]
      · rw [hin k hk, hfin1, if_neg (hmem k hk).2]
    · intro k hk
      rw [hout k fun h => hk (List.mem_cons_of_mem j h), hfin1,
        if_neg fun h : k = j => hk (by rw [h]; exact List.mem_cons_self j path)]

/-- The proof of round 0 for block 1: keys 1, 2 and 3 prevote and precommit it. -/
def blockOneProof : ProofType :=
  ⟨0, chainBlock 1, [1, 2, 3].map blockOnePrevote, [1, 2, 3].map blockOnePrecommit⟩

/-- Three producers over the tree of block 1: the first holds the proof of block 1 and has
sent the second its notice, and the second has the third as the peer of key 3. -/
def relayCluster : Cluster :=
  ⟨[{ fourKeyProducer with
      lastProofs := [blockOneProof]
      outbox := [.send 1 (blockOneProof.notice [1])] },
    { fourKeyProducer with peers := KeyMap.empty.assign 3 2 }, fourKeyProducer], KeySet.empty⟩

/-- The proof of block 1 goes from the first producer to the second and on to the third, and
both publish block 1. -/
theorem proof_relayed_along_peers_relayCluster :
    ∃ c', relayCluster.run [] (Cluster.relay relayCluster.providers blockOneProof 0 [1, 2]) = some c' ∧
      (∀ j ∈ [1, 2], c'.finalized j = relayCluster.finalized j ++ [chainBlock 1]) ∧
      ∀ k ∉ [1, 2], c'.finalized k = relayCluster.finalized k :=
  proof_relayed_along_peers [1, 2] relayCluster 0 _ rfl (by decide)
    (fun j hj => by obtain rfl := Option.some.inj hj; decide) (by decide)
    (List.forall_mem_cons.2 ⟨⟨_, rfl, by decide, by decide, by decide, by decide, by decide⟩,
      List.forall_mem_cons.2 ⟨⟨_, rfl, by decide, by decide, by decide, by decide, by decide⟩,
        fun _ h => absurd h (List.not_mem_nil _)⟩⟩)
    (List.chain'_pair.2 ⟨_, rfl, by decide, by decide⟩)

end randpa_finality
