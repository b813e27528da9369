import Clockchain.Anchor.Shape

/-!
# Inclusion proofs

One round of the verifier goes up one level, whatever the node's position there: paired
with its left or its right neighbour, or promoted. The audit path of a leaf is accepted
against the root, and no other leaf is accepted under that index.
-/

namespace Clockchain.Anchor
open Codec V1 Levels
set_option autoImplicit false

section
variable {α : Type} (left right : Hash → α → α)

theorem and_one_eq_zero {n : Nat} : n &&& 1 = 0 ↔ n % 2 = 0 := by rw [Nat.and_one_is_mod]

theorem and_one_eq_one {n : Nat} : n &&& 1 = 1 ↔ n % 2 = 1 := by rw [Nat.and_one_is_mod]

theorem shiftEven_even {fnode snode : Nat} (h0 : fnode ≠ 0) (h : fnode % 2 = 0) :
    shiftEven fnode snode = shiftEven (fnode / 2) (snode / 2) := by
  rw [shiftEven, dif_pos ⟨h0, and_one_eq_zero.mpr h⟩, Nat.shiftRight_one, Nat.shiftRight_one]

theorem shiftEven_odd {fnode snode : Nat} (h : fnode % 2 = 1) :
    shiftEven fnode snode = (fnode, snode) := by
  rw [shiftEven, dif_neg]
  rintro ⟨_, heven⟩
  have := and_one_eq_zero.mp heven
  omega

theorem walk_odd {fnode snode : Nat} (h0 : snode ≠ 0) (h : fnode % 2 = 1) (p : Hash)
    (path : List Hash) (r : α) :
    walk left right (p :: path) fnode snode r =
      walk left right path (fnode / 2) (snode / 2) (left p r) := by
  have hodd := and_one_eq_one.mpr h
  rw [walk, if_neg h0, if_pos (Or.inl hodd), if_neg (by omega)]
  simp only [Nat.shiftRight_one]

theorem walk_even {fnode snode : Nat} (h : fnode % 2 = 0) (hlt : fnode < snode) (p : Hash)
    (path : List Hash) (r : α) :
    walk left right (p :: path) fnode snode r =
      walk left right path (fnode / 2) (snode / 2) (right p r) := by
  have heven := and_one_eq_zero.mpr h
  rw [walk, if_neg (by omega), if_neg (by omega)]
  simp only [Nat.shiftRight_one]

/-- The last node of an odd level is promoted before it is hashed. -/
theorem walk_last {fnode : Nat} (h0 : fnode ≠ 0) (h : fnode % 2 = 0) (p : Hash)
    (path : List Hash) (r : α) :
    walk left right (p :: path) fnode fnode r =
      walk left right (p :: path) (fnode / 2) (fnode / 2) r := by
  have heven := and_one_eq_zero.mpr h
  rw [walk, if_neg h0, if_pos (Or.inr rfl), if_pos heven, shiftEven_even h0 h]
  rcases Nat.mod_two_eq_zero_or_one (fnode / 2) with hhalf | hhalf
  · rw [walk, if_neg (by omega), if_pos (Or.inr rfl), if_pos (and_one_eq_zero.mpr hhalf)]
  · rw [shiftEven_odd hhalf, walk_odd left right (by omega) hhalf]
    simp only [Nat.shiftRight_one]

def stepped (r : α) : Turn Hash → α
  | (.left, p) => left p r
  | (.right, p) => right p r

/-- What a walk along `turns` computes. -/
def along (turns : List (Turn Hash)) (r : α) : α := turns.foldl (stepped left right) r

/-- Below the top there is a neighbour to meet. -/
theorem ascent_nil {fnode snode : Nat} {turns : List (Turn Hash)}
    (ascent : Ascent fnode snode turns) (h : turns = []) : snode = 0 := by
  induction ascent with
  | root => rfl
  | left => simp at h
  | right => simp at h
  | promoted even ne above ih =>
    have := ih h
    omega

theorem walk_of_ascent {fnode snode : Nat} {turns : List (Turn Hash)}
    (ascent : Ascent fnode snode turns) (r : α) :
    walk left right (turns.map Prod.snd) fnode snode r = some (0, along left right turns r) := by
  induction ascent generalizing r with
  | root => rfl
  | left p odd le above ih =>
    rw [List.map_cons, walk_odd left right (by omega) odd]
    exact ih (left p r)
  | right p even lt above ih =>
    rw [List.map_cons, walk_even left right even lt]
    exact ih (right p r)
  | @promoted f turns even ne above ih =>
    cases turns with
    | nil =>
      have := ascent_nil above rfl
      omega
    | cons t rest =>
      rw [List.map_cons, walk_last left right ne even]
      exact ih r

theorem ascent_of_walk {fnode snode : Nat} (hle : fnode ≤ snode) {path : List Hash} {r x : α}
    (h : walk left right path fnode snode r = some (0, x)) :
    ∃ turns, Ascent fnode snode turns ∧ turns.map Prod.snd = path ∧
      along left right turns r = x := by
  induction hn : snode using Nat.strong_induction_on generalizing fnode snode path r with
  | _ n ih =>
    subst hn
    cases path with
    | nil =>
      simp only [walk, Option.some.injEq, Prod.mk.injEq] at h
      obtain ⟨rfl, rfl⟩ := h
      obtain rfl : fnode = 0 := by omega
      exact ⟨[], .root, rfl, rfl⟩
    | cons p rest =>
      have h0 : snode ≠ 0 := by
        intro h0
        simp [walk, h0] at h
      rcases Nat.mod_two_eq_zero_or_one fnode with heven | hodd
      · by_cases hlast : fnode = snode
        · subst hlast
          rw [walk_last left right h0 heven] at h
          obtain ⟨turns, hascent, hpath, hx⟩ := ih (fnode / 2) (by omega) (by omega) h rfl
          exact ⟨turns, .promoted heven h0 hascent, hpath, hx⟩
        · rw [walk_even left right heven (by omega)] at h
          obtain ⟨turns, hascent, rfl, rfl⟩ := ih (snode / 2) (by omega) (by omega) h rfl
          exact ⟨(.right, p) :: turns, .right p heven (by omega) hascent, rfl, rfl⟩
      · rw [walk_odd left right h0 hodd] at h
        obtain ⟨turns, hascent, rfl, rfl⟩ := ih (snode / 2) (by omega) (by omega) h rfl
        exact ⟨(.left, p) :: turns, .left p hodd hle hascent, rfl, rfl⟩

end

variable (sha256 : List UInt8 → Hash)

theorem along_climb (turns : List (Turn Hash)) (r : Hash) :
    along (fun p r => nodeHash sha256 p r) (fun p r => nodeHash sha256 r p) turns r =
      ascend (nodeHash sha256) turns r := by
  induction turns generalizing r with
  | nil => rfl
  | cons t turns ih =>
    obtain ⟨side, p⟩ := t
    cases side with
    | left => exact ih (nodeHash sha256 p r)
    | right => exact ih (nodeHash sha256 r p)

theorem InclusionProof.verify_iff (proof : InclusionProof) (leaf : LeafHash) (root : MerkleRoot) :
    proof.verify sha256 leaf root = true ↔
      ∃ turns, Ascent proof.leafIndex (proof.treeSize - 1) turns ∧
        proof.leafIndex < proof.treeSize ∧ turns.map Prod.snd = proof.path ∧
        ascend (nodeHash sha256) turns leaf.bytes = root.bytes := by
  unfold InclusionProof.verify
  by_cases hindex : proof.leafIndex ≥ proof.treeSize
  · rw [if_pos hindex]
    constructor
    · intro h
      cases h
    · rintro ⟨turns, _, hlt, _, _⟩
      omega
  rw [if_neg hindex]
  constructor
  · intro h
    split at h
    · cases h
    · rename_i snode r hclimb
      simp only [Bool.and_eq_true, beq_iff_eq] at h
      obtain ⟨rfl, rfl⟩ := h
      obtain ⟨turns, hascent, hpath, hx⟩ := ascent_of_walk _ _ (by omega) hclimb
      rw [along_climb] at hx
      exact ⟨turns, hascent, by omega, hpath, hx⟩
  · rintro ⟨turns, hascent, _, hpath, hx⟩
    have hwalk := walk_of_ascent (fun p r => nodeHash sha256 p r)
      (fun p r => nodeHash sha256 r p) hascent leaf.bytes
    rw [along_climb, hpath, hx] at hwalk
    have hclimb : climb sha256 proof.path proof.leafIndex (proof.treeSize - 1) leaf.bytes =
        some (0, root.bytes) := hwalk
    rw [hclimb]
    simp

/-- The pairs that checking `leaf` against the path hashes. -/
def InclusionProof.pairs (proof : InclusionProof) (leaf : LeafHash) : List (Hash × Hash) :=
  (walk (fun p r => (nodeHash sha256 p r.1, (p, r.1) :: r.2))
    (fun p r => (nodeHash sha256 r.1 p, (r.1, p) :: r.2))
    proof.path proof.leafIndex (proof.treeSize - 1) (leaf.bytes, [])).elim [] fun x => x.2.2

theorem along_pairs (turns : List (Turn Hash)) (r : Hash) (ps : List (Hash × Hash)) :
    along (fun p (r : Hash × List (Hash × Hash)) => (nodeHash sha256 p r.1, (p, r.1) :: r.2))
      (fun p r => (nodeHash sha256 r.1 p, (r.1, p) :: r.2)) turns (r, ps) =
    (ascend (nodeHash sha256) turns r, (joins (nodeHash sha256) turns r).reverse ++ ps) := by
  induction turns generalizing r ps with
  | nil => rfl
  | cons t turns ih =>
    obtain ⟨side, p⟩ := t
    cases side with
    | left =>
      simp only [joins, List.reverse_cons, List.append_assoc, List.singleton_append]
      exact ih (nodeHash sha256 p r) ((p, r) :: ps)
    | right =>
      simp only [joins, List.reverse_cons, List.append_assoc, List.singleton_append]
      exact ih (nodeHash sha256 r p) ((r, p) :: ps)

theorem InclusionProof.joins_pairs {proof : InclusionProof} {leaf : LeafHash}
    {turns : List (Turn Hash)} (ascent : Ascent proof.leafIndex (proof.treeSize - 1) turns)
    (hpath : turns.map Prod.snd = proof.path) {p : Hash × Hash}
    (h : p ∈ joins (nodeHash sha256) turns leaf.bytes) : p ∈ proof.pairs sha256 leaf := by
  unfold InclusionProof.pairs
  rw [← hpath, walk_of_ascent _ _ ascent, along_pairs]
  simpa using h

/-- The audit path of a leaf checks out against the root. -/
theorem auditPath_verifies {leaves : List LeafHash} {index : Nat} (h : index < leaves.length) :
    (⟨index, leaves.length, auditPath sha256 leaves index⟩ : InclusionProof).verify sha256
      leaves[index] (merkleRoot sha256 leaves) = true := by
  have hne : leaves ≠ [] := List.ne_nil_of_length_pos (by omega)
  have hr : (bytesOf leaves)[index]? = some leaves[index].bytes := by
    rw [List.getElem?_map, List.getElem?_eq_getElem h]
    rfl
  obtain ⟨turns, hascent, hsib, htop⟩ := ascends (nodeHash sha256)
    (s := leaves.length - 1) (by rw [List.length_map]; omega) hr
  apply (InclusionProof.verify_iff sha256 _ _ _).mpr
  refine ⟨turns, hascent, h, ?_, ?_⟩
  · rw [hsib, auditPath_eq sha256 h]
  · rw [top_bytesOf sha256 hne] at htop
    exact (Option.some.inj htop).symm

/-- The proof built for a leaf is accepted, and only the leaf of its index is accepted
against the root: for any path, where SHA-256 does not collide on what the tree and the
check hash. -/
theorem inclusion_proofs (leaves : List LeafHash) :
    (∀ index (h : index < leaves.length), ∃ proof,
      proveInclusion sha256 leaves index = .ok proof ∧ proof.treeSize = leaves.length ∧
      proof.verify sha256 leaves[index] (merkleRoot sha256 leaves) = true) ∧
    ∀ (proof : InclusionProof) (leaf : LeafHash), proof.treeSize = leaves.length →
      Distinct (nodeHash sha256)
        {p | p ∈ hashed sha256 leaves ∨ p ∈ proof.pairs sha256 leaf} →
      proof.verify sha256 leaf (merkleRoot sha256 leaves) = true →
      proof.leafIndex < leaves.length ∧ leaves[proof.leafIndex]? = some leaf := by
  constructor
  · intro index h
    refine ⟨⟨index, leaves.length, auditPath sha256 leaves index⟩, ?_, rfl, ?_⟩
    · rw [proveInclusion, if_neg (by omega)]
    · exact auditPath_verifies sha256 h
  · intro proof leaf hsize hS hverify
    obtain ⟨turns, hascent, hlt, hpath, hx⟩ := (InclusionProof.verify_iff sha256 _ _ _).mp hverify
    have hne : leaves ≠ [] := List.ne_nil_of_length_pos (by omega)
    have hfound := @Levels.Ascent.sound _ (nodeHash sha256) _ _ _ hascent _ hS (bytesOf leaves)
      (by rw [List.length_map]; omega)
      (fun p hp => Or.inl ((hashed_eq sha256 leaves p).mpr hp)) _
      (fun p hp => Or.inr (InclusionProof.joins_pairs sha256 hascent hpath hp))
      (by rw [top_bytesOf sha256 hne, hx]; rfl)
    refine ⟨by omega, ?_⟩
    rw [List.getElem?_map] at hfound
    obtain ⟨found, hget, hbytes⟩ := Option.map_eq_some_iff.mp hfound
    rw [hget, bytes_injective hbytes]

namespace Sample

/-- SHA-256 on the preimages of the leaves of events `1` to `3` and of the nodes above them:
an entry is the second and the last byte of the preimage. -/
def treeDigests : List ((Nat × Nat) × Hash) :=
  [((0, 1), 0x1fd4247443c9440cb3c48c28851937196bc156032d70a96c98e127ecb347e45f),
   ((0, 2), 0x58cc2f44d3a27866874701fbad573da9ad1cfd88fa3145531c822f20a58beea1),
   ((0, 3), 0xd9cf8add8675a1b25627d7b0ec33bc177cb3930b0b6e995d79c386b980b2f4d6),
   ((0x1f, 0xa1), 0x0971c8a1ce81287ccbc95aa4f171a5f807fb13ea2118f56b99769459a64906ad),
   ((0x09, 0xd6), 0x93e34ecb30d456c2bb3903c45dd51d053db3e66522a0a2eaf5fafa58312ed037)]

def treeSha (bytes : List UInt8) : Hash :=
  (treeDigests.lookup ((bytes.getD 1 0).toNat, (bytes.getLastD 0).toNat)).getD 0

def threeLeaves : List LeafHash := [1, 2, 3].map (leafHash treeSha)

/-- The node above the first two leaves. -/
def firstNode : Hash := 0x0971c8a1ce81287ccbc95aa4f171a5f807fb13ea2118f56b99769459a64906ad

def thirdProof : InclusionProof := ⟨2, 3, [firstNode]⟩

end Sample

theorem mth_pair (a b : LeafHash) : mth sha256 [a, b] = nodeHash sha256 a.bytes b.bytes := by
  rw [mth_split sha256 (by simp), show splitPoint [a, b].length = 1 from splitPoint_two]
  simp [mth_singleton]

theorem hashed_pair (a b : LeafHash) : hashed sha256 [a, b] = [(a.bytes, b.bytes)] := by
  rw [hashed_split sha256 (by simp), show splitPoint [a, b].length = 1 from splitPoint_two]
  simp [mth_singleton, hashed_short]

theorem splitPoint_three : splitPoint 3 = 2 := by decide

theorem mth_three (a b c : LeafHash) :
    mth sha256 [a, b, c] = nodeHash sha256 (nodeHash sha256 a.bytes b.bytes) c.bytes := by
  rw [mth_split sha256 (by simp), show splitPoint [a, b, c].length = 2 from splitPoint_three]
  simp [mth_singleton, mth_pair]

theorem hashed_three (a b c : LeafHash) :
    hashed sha256 [a, b, c] =
      [(nodeHash sha256 a.bytes b.bytes, c.bytes), (a.bytes, b.bytes)] := by
  rw [hashed_split sha256 (by simp), show splitPoint [a, b, c].length = 2 from splitPoint_three]
  simp [mth_singleton, mth_pair, hashed_pair, hashed_short]

namespace Sample

theorem firstNode_eq :
    nodeHash treeSha (leafHash treeSha 1).bytes (leafHash treeSha 2).bytes = firstNode := by
  decide

/-- The two pairs of the tree over three leaves hash apart. -/
theorem nodes_apart : nodeHash treeSha firstNode (leafHash treeSha 3).bytes ≠ firstNode := by
  decide

theorem hashed_threeLeaves : hashed treeSha threeLeaves =
    [(firstNode, (leafHash treeSha 3).bytes),
      ((leafHash treeSha 1).bytes, (leafHash treeSha 2).bytes)] := by
  rw [← firstNode_eq]
  exact hashed_three _ _ _ _

theorem merkleRoot_threeLeaves : merkleRoot treeSha threeLeaves =
    ⟨nodeHash treeSha firstNode (leafHash treeSha 3).bytes⟩ := by
  rw [← firstNode_eq]
  exact congrArg MerkleRoot.mk (mth_three _ _ _ _)

/-- No collision among the pairs of that tree. -/
theorem distinct_threeLeaves {S : Set (Hash × Hash)}
    (h : ∀ p ∈ S, p = (firstNode, (leafHash treeSha 3).bytes) ∨
      p = ((leafHash treeSha 1).bytes, (leafHash treeSha 2).bytes)) :
    Distinct (nodeHash treeSha) S := by
  intro p hp q hq heq
  rcases h p hp with rfl | rfl
  · rcases h q hq with rfl | rfl
    · rfl
    · exact absurd (heq.trans firstNode_eq) nodes_apart
  · rcases h q hq with rfl | rfl
    · exact absurd (heq.symm.trans firstNode_eq) nodes_apart
    · rfl

theorem thirdProof_ascent : Ascent thirdProof.leafIndex (thirdProof.treeSize - 1)
    [((.left, firstNode) : Turn Hash)] :=
  show Ascent 2 2 _ from
    .promoted (by decide) (by decide) (.left _ (by decide) (by decide) .root)

theorem thirdProof_pairs : thirdProof.pairs treeSha (leafHash treeSha 3) =
    [(firstNode, (leafHash treeSha 3).bytes)] := by
  unfold InclusionProof.pairs
  rw [show thirdProof.path = [((.left, firstNode) : Turn Hash)].map Prod.snd from rfl,
    walk_of_ascent _ _ thirdProof_ascent]
  rfl

end Sample

theorem third_leaf_proof :
    2 < Sample.threeLeaves.length ∧
      Sample.threeLeaves[2]? = some (leafHash Sample.treeSha 3) := by
  refine (inclusion_proofs Sample.treeSha Sample.threeLeaves).2 Sample.thirdProof
    (leafHash Sample.treeSha 3) rfl (Sample.distinct_threeLeaves ?_) ?_
  · rw [Sample.hashed_threeLeaves, Sample.thirdProof_pairs]
    simp only [List.mem_cons, List.not_mem_nil, or_false, Set.mem_ofPred_eq]
    tauto
  · rw [Sample.merkleRoot_threeLeaves]
    exact (InclusionProof.verify_iff _ _ _ _).mpr
      ⟨_, Sample.thirdProof_ascent, by decide, rfl, rfl⟩

end Clockchain.Anchor
