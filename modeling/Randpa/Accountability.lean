-- What `validate_proof` certifies: the precommitters of an accepted proof are active keys at
-- its best block, more than two thirds of them, each with a precommit for that block. So two
-- accepted proofs over the same active keys share a precommitter outside any `f` keys.
import Randpa.ProofRecord

namespace randpa_finality

/-! ## The keys of signed votes -/

namespace KeySet

/-- The keys of the set, as a finite set. -/
def toFinset (s : KeySet) : Finset PublicKey := s.keys.toFinset

@[simp]
theorem mem_toFinset {s : KeySet} {k : PublicKey} : k ∈ s.toFinset ↔ k ∈ s := by
  simp [toFinset, mem_def]

theorem card_toFinset (s : KeySet) : s.toFinset.card = s.size :=
  List.toFinset_card_of_nodup s.nodup

end KeySet

theorem mem_foldl_insert {T : Type} (k : PublicKey) :
    ∀ (votes : List (T × PublicKey)) (s : KeySet),
      k ∈ votes.foldl (fun s v => s.insert v.2) s ↔ k ∈ s ∨ ∃ v ∈ votes, v.2 = k
  | [], s => by simp
  | v :: vs, s => by
    rw [List.foldl_cons, mem_foldl_insert k vs, KeySet.mem_insert]
    simp only [List.mem_cons, exists_eq_or_imp, eq_comm (a := k), or_assoc, or_left_comm]

/-- The keys that `validate_proof` collects are the signers of the votes. -/
theorem mem_keysOf {T : Type} {k : PublicKey} {votes : List (T × PublicKey)} :
    k ∈ Randpa.keysOf votes ↔ ∃ v ∈ votes, v.2 = k := by
  simp [Randpa.keysOf, mem_foldl_insert]

/-! ## The precommitters of an accepted proof -/

/-- The keys whose precommits a proof carries. -/
def ProofType.precommitters (p : ProofType) : KeySet := Randpa.keysOf (Randpa.signedVotes p.precommits)

/-- An accepted proof: each precommitter is active at the best block's node and signed a
precommit for the best block, and the precommitters are more than two thirds of the active
keys. -/
theorem Randpa.validateProof_precommitters {e : Randpa} {p : ProofType} {h : Nat}
    (hv : e.validateProof p = true) (hf : e.prefixTree.find p.bestBlock = some h) :
    (∀ k ∈ p.precommitters, k ∈ (e.prefixTree.nodeAt h).activeBpKeys ∧
      ∃ m ∈ p.precommits, k ∈ m.publicKeys ∧ m.data.blockId = p.bestBlock) ∧
    p.precommitters.size > (e.prefixTree.nodeAt h).activeBpKeys.size * 2 / 3 := by
  simp only [validateProof, hf, Bool.and_eq_true, List.all_eq_true, decide_eq_true_eq] at hv
  obtain ⟨⟨-, hc⟩, hn⟩ := hv
  refine ⟨fun k hk => ?_, hn⟩
  obtain ⟨⟨d, k⟩, hkv, rfl⟩ := mem_keysOf.1 hk
  obtain ⟨m, hm, hkm, rfl⟩ := mem_signedVotes.1 hkv
  have := (hc _ hkv).2
  simp only [validatePrecommit, Bool.and_eq_true, beq_iff_eq, decide_eq_true_eq] at this
  exact ⟨this.2, m, hm, hkm, this.1⟩

/-- Two sets of more than two thirds of `n` keys share a key outside any `(n - 1) / 3` of
them. -/
theorem exists_common_outside {A P P' : Finset PublicKey} (B : Finset PublicKey) (hP : P ⊆ A) (hP' : P' ⊆ A)
    (hq : P.card > A.card * 2 / 3) (hq' : P'.card > A.card * 2 / 3) (hB : B.card ≤ (A.card - 1) / 3) :
    ∃ k ∈ P, k ∈ P' ∧ k ∉ B := by
  have hunion : (P ∪ P').card ≤ A.card := Finset.card_le_card (Finset.union_subset hP hP')
  have hinter := Finset.card_union_add_card_inter P P'
  have hout := Finset.le_card_sdiff B (P ∩ P')
  obtain ⟨k, hk⟩ : ((P ∩ P') \ B).Nonempty := Finset.card_pos.1 (by omega)
  obtain ⟨hkPP, hkB⟩ := Finset.mem_sdiff.1 hk
  exact ⟨k, (Finset.mem_inter.1 hkPP).1, (Finset.mem_inter.1 hkPP).2, hkB⟩

/-- Two proofs that `validate_proof` accepts, at nodes with the same active keys, have a
common precommitter among those keys outside any set of at most `(n - 1) / 3` of them, `n`
the number of active keys: a key outside that set precommitted both best blocks. -/
theorem accepted_proofs_share_precommitter {e e' : Randpa} {p p' : ProofType} {h h' : Nat}
    (hv : e.validateProof p = true) (hv' : e'.validateProof p' = true)
    (hf : e.prefixTree.find p.bestBlock = some h) (hf' : e'.prefixTree.find p'.bestBlock = some h')
    (hk : (e'.prefixTree.nodeAt h').activeBpKeys = (e.prefixTree.nodeAt h).activeBpKeys)
    (B : Finset PublicKey) (hB : B.card ≤ ((e.prefixTree.nodeAt h).activeBpKeys.size - 1) / 3) :
    ∃ k ∈ (e.prefixTree.nodeAt h).activeBpKeys, k ∉ B ∧
      (∃ m ∈ p.precommits, k ∈ m.publicKeys ∧ m.data.blockId = p.bestBlock) ∧
      ∃ m ∈ p'.precommits, k ∈ m.publicKeys ∧ m.data.blockId = p'.bestBlock := by
  obtain ⟨hp, hn⟩ := Randpa.validateProof_precommitters hv hf
  obtain ⟨hp', hn'⟩ := Randpa.validateProof_precommitters hv' hf'
  rw [hk] at hp' hn'
  obtain ⟨k, hkP, hkP', hkB⟩ := exists_common_outside B
    (fun k hk => KeySet.mem_toFinset.2 (hp k (KeySet.mem_toFinset.1 hk)).1)
    (fun k hk => KeySet.mem_toFinset.2 (hp' k (KeySet.mem_toFinset.1 hk)).1)
    (by rw [KeySet.card_toFinset, KeySet.card_toFinset]; exact hn)
    (by rw [KeySet.card_toFinset, KeySet.card_toFinset]; exact hn')
    (by rw [KeySet.card_toFinset]; exact hB)
  rw [KeySet.mem_toFinset] at hkP hkP'
  exact ⟨k, (hp k hkP).1, hkB, (hp k hkP).2, (hp' k hkP').2⟩

/-- The proof of round 0 for block `b` that key 1 prevoted and precommitted. -/
def keyOneProof (b : BlockId) : ProofType :=
  { bestBlock := b, prevotes := [⟨⟨0, b, []⟩, [1]⟩], precommits := [⟨⟨0, b⟩, [1]⟩] }

/-- A full node with blocks 1 and 1' of two forks on the zero block, key 1 active at both. -/
def forkedNode : Randpa :=
  (fullNode.loop
    [(0, acceptedBlock (chainBlock 1) BlockId.zero 1 [1]), (0, acceptedBlock ⟨1, 11⟩ BlockId.zero 1 [1])]
    ).toOption.getD fullNode

/-- The node accepts a proof for each fork; key 1, outside the empty set, precommitted both. -/
theorem accepted_proofs_share_precommitter_forks :
    ∃ k ∈ (forkedNode.prefixTree.nodeAt 1).activeBpKeys, k ∉ (∅ : Finset PublicKey) ∧
      (∃ m ∈ (keyOneProof (chainBlock 1)).precommits, k ∈ m.publicKeys ∧
        m.data.blockId = chainBlock 1) ∧
      ∃ m ∈ (keyOneProof ⟨1, 11⟩).precommits, k ∈ m.publicKeys ∧ m.data.blockId = ⟨1, 11⟩ :=
  @accepted_proofs_share_precommitter forkedNode forkedNode (keyOneProof (chainBlock 1))
    (keyOneProof ⟨1, 11⟩) 1 2 (by decide) (by decide) (by decide) (by decide) (by decide) ∅ (by decide)

end randpa_finality
