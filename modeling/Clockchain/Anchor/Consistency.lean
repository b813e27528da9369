import Clockchain.Anchor.Inclusion

/-!
# Consistency proofs

Shifting the old size's last index while it is odd goes up the levels on which the old tree
is even. There its last node is also a node of the new tree, and the audit path of that node
rebuilds both roots.
-/

namespace Clockchain.Anchor
open Codec V1 Levels
set_option autoImplicit false

variable (sha256 : List UInt8 → Hash)

theorem shiftOdd_even {fnode snode : Nat} (h : fnode % 2 = 0) :
    shiftOdd fnode snode = (fnode, snode) := by
  have := (and_one_eq_zero (n := fnode)).mpr h
  rw [shiftOdd, dif_neg (by omega)]

theorem shiftOdd_odd {fnode snode : Nat} (h : fnode % 2 = 1) :
    shiftOdd fnode snode = shiftOdd (fnode / 2) (snode / 2) := by
  rw [shiftOdd, dif_pos (and_one_eq_one.mpr h), Nat.shiftRight_one, Nat.shiftRight_one]

theorem shiftOdd_le {fnode snode : Nat} (h : fnode ≤ snode) :
    (shiftOdd fnode snode).1 ≤ (shiftOdd fnode snode).2 := by
  induction hn : fnode using Nat.strong_induction_on generalizing fnode snode with
  | _ n ih =>
    subst hn
    rcases Nat.mod_two_eq_zero_or_one fnode with heven | hodd
    · rw [shiftOdd_even heven]
      exact h
    · rw [shiftOdd_odd hodd]
      exact ih _ (by omega) (by omega) rfl

/-- One even prefix down: the sizes of the level above. -/
theorem shiftOdd_sizes {m n : Nat} (hpos : 0 < m) (heven : m % 2 = 0) (hlt : m < n) :
    shiftOdd (m - 1) (n - 1) = shiftOdd (m / 2 - 1) ((n + 1) / 2 - 1) := by
  rw [shiftOdd_odd (by omega), show (m - 1) / 2 = m / 2 - 1 by omega,
    show (n - 1) / 2 = (n + 1) / 2 - 1 by omega]

/-- Both roots rebuilt from one node: the shorter list is a prefix of the longer. -/
theorem prefix_of_ascent {S : Set (Hash × Hash)} (hS : Distinct (nodeHash sha256) S)
    {old new : List Hash} (hpos : 0 < old.length) (hlt : old.length < new.length)
    (ho : ∀ p ∈ levelPairs (nodeHash sha256) old, p ∈ S)
    (hn : ∀ p ∈ levelPairs (nodeHash sha256) new, p ∈ S) {turns : List (Turn Hash)}
    (ascent : Ascent (shiftOdd (old.length - 1) (new.length - 1)).1
      (shiftOdd (old.length - 1) (new.length - 1)).2 turns) {first : Hash}
    (hfr : ∀ p ∈ joins (nodeHash sha256) (lefts turns) first, p ∈ S)
    (hsr : ∀ p ∈ joins (nodeHash sha256) turns first, p ∈ S)
    (htopo : top (nodeHash sha256) old = some (ascend (nodeHash sha256) (lefts turns) first))
    (htopn : top (nodeHash sha256) new = some (ascend (nodeHash sha256) turns first)) :
    old = new.take old.length := by
  induction hm : old.length using Nat.strong_induction_on generalizing old new with
  | _ m ih =>
    subst hm
    rcases Nat.mod_two_eq_zero_or_one old.length with heven | hodd
    · obtain ⟨hoadj, houp⟩ := mem_levelPairs_up (nodeHash sha256) ho
      obtain ⟨hnadj, hnup⟩ := mem_levelPairs_up (nodeHash sha256) hn
      have hlo : (pairUp (nodeHash sha256) old).length = old.length / 2 := by
        rw [length_pairUp]
        omega
      have hln := length_pairUp (nodeHash sha256) new
      rw [shiftOdd_sizes hpos heven hlt, ← hlo, ← hln] at ascent
      rw [← top_pairUp] at htopo htopn
      have habove := ih _ (by omega) (by omega) (by omega) houp hnup ascent htopo htopn rfl
      have htake := take_eq_of_pairUp (nodeHash sha256) hS (q := old.length / 2) (by omega)
        (by omega) hoadj hnadj (by rw [← hlo, ← habove, List.take_length])
      rw [show 2 * (old.length / 2) = old.length by omega, List.take_length] at htake
      exact htake
    · rw [shiftOdd_even (by omega)] at ascent
      obtain ⟨hlast, htake⟩ := @Ascent.agree _ (nodeHash sha256) _ _ _ ascent _ hS old new
        (by omega) (by omega) ho hn _ _ hfr hsr htopo htopn
      have hnew := @Ascent.sound _ (nodeHash sha256) _ _ _ ascent _ hS new (by omega) hn _ hsr htopn
      have := take_succ_eq htake hlast hnew
      rwa [show old.length - 1 + 1 = old.length by omega, List.take_length] at this

/-- The proof of a shorter prefix is a node and the turns that rebuild both roots from it. -/
theorem subproof_ascent {leaves : List LeafHash} {m : Nat} (hpos : 0 < m)
    (hlt : m < leaves.length) :
    ∃ first turns, Ascent (shiftOdd (m - 1) (leaves.length - 1)).1
        (shiftOdd (m - 1) (leaves.length - 1)).2 turns ∧
      subproof sha256 leaves m false = first :: turns.map Prod.snd ∧
      mth sha256 (leaves.take m) = ascend (nodeHash sha256) (lefts turns) first ∧
      mth sha256 leaves = ascend (nodeHash sha256) turns first := by
  induction hn : leaves.length using Nat.strong_induction_on generalizing leaves m with
  | _ n ih =>
    subst hn
    rcases Nat.mod_two_eq_zero_or_one m with heven | hodd
    · have hup : (levelUp sha256 leaves).length = (leaves.length + 1) / 2 := length_pairUp _ _
      obtain ⟨first, turns, hascent, hpath, hold, hnew⟩ :=
        @ih _ (by omega) (levelUp sha256 leaves) _ (show 0 < m / 2 by omega) (by omega) rfl
      refine ⟨first, turns, ?_, ?_, ?_, ?_⟩
      · rwa [shiftOdd_sizes hpos heven hlt, ← hup]
      · rw [subproof_levelUp sha256 hpos (by omega) heven, hpath]
      · rw [← hold, take_pairUp, show 2 * (m / 2) = m by omega, mth_levelUp]
      · rw [← hnew, mth_levelUp]
    · have hlast : leaves[m - 1]? = some leaves[m - 1] := List.getElem?_eq_getElem (by omega)
      have hr : (bytesOf leaves)[m - 1]? = some leaves[m - 1].bytes := by
        rw [List.getElem?_map, hlast]
        rfl
      obtain ⟨turns, hascent, hsib, htop⟩ := ascends (nodeHash sha256)
        (s := leaves.length - 1) (by rw [List.length_map]; omega) hr
      have hold := @Ascent.rebuild _ (nodeHash sha256) _ _ _ hascent ((bytesOf leaves).take m)
        (bytesOf leaves) (by rw [List.length_take, List.length_map]; omega)
        (by rw [List.length_map]; omega) hsib
        (by rw [List.take_take, Nat.min_eq_left (by omega)])
        _ (by rw [List.getElem?_take_of_lt (by omega), hr])
      rw [shiftOdd_even (by omega)]
      refine ⟨leaves[m - 1].bytes, turns, hascent, ?_, ?_, ?_⟩
      · rw [subproof_odd sha256 hodd (Or.inl hlt), hlast, auditPath_eq sha256 (by omega), hsib]
        rfl
      · rw [← List.map_take, top_bytesOf sha256 (List.ne_nil_of_length_pos (by
          rw [List.length_take]; omega))] at hold
        exact Option.some.inj hold
      · rw [top_bytesOf sha256 (List.ne_nil_of_length_pos (by omega))] at htop
        exact Option.some.inj htop

theorem along_climbBoth (turns : List (Turn Hash)) (fr sr : Hash) :
    along (fun c (r : Hash × Hash) => (nodeHash sha256 c r.1, nodeHash sha256 c r.2))
      (fun c r => (r.1, nodeHash sha256 r.2 c)) turns (fr, sr) =
    (ascend (nodeHash sha256) (lefts turns) fr, ascend (nodeHash sha256) turns sr) := by
  induction turns generalizing fr sr with
  | nil => rfl
  | cons t turns ih =>
    obtain ⟨side, c⟩ := t
    cases side with
    | left => exact ih (nodeHash sha256 c fr) (nodeHash sha256 c sr)
    | right => exact ih fr (nodeHash sha256 sr c)

/-- What accepting a proof between two different sizes comes to. -/
theorem ConsistencyProof.verify_iff {proof : ConsistencyProof} (hpos : proof.oldSize ≠ 0)
    (hlt : proof.oldSize < proof.newSize) (oldRoot newRoot : MerkleRoot) :
    proof.verify sha256 oldRoot newRoot = true ↔
      ∃ first turns, proof.nodes oldRoot = first :: turns.map Prod.snd ∧
        Ascent (shiftOdd (proof.oldSize - 1) (proof.newSize - 1)).1
          (shiftOdd (proof.oldSize - 1) (proof.newSize - 1)).2 turns ∧
        ascend (nodeHash sha256) (lefts turns) first = oldRoot.bytes ∧
        ascend (nodeHash sha256) turns first = newRoot.bytes := by
  have hle := shiftOdd_le (show proof.oldSize - 1 ≤ proof.newSize - 1 by omega)
  unfold ConsistencyProof.verify
  rw [if_neg (by omega), if_neg (by omega)]
  constructor
  · intro h
    cases hnodes : proof.nodes oldRoot with
    | nil => simp [hnodes] at h
    | cons first rest =>
      rw [hnodes] at h
      cases hclimb : climbBoth sha256 rest (shiftOdd (proof.oldSize - 1) (proof.newSize - 1)).1
          (shiftOdd (proof.oldSize - 1) (proof.newSize - 1)).2 (first, first) with
      | none => simp [hclimb] at h
      | some out =>
        obtain ⟨snode, fr, sr⟩ := out
        simp only [hclimb, Bool.and_eq_true, beq_iff_eq] at h
        obtain ⟨⟨rfl, rfl⟩, rfl⟩ := h
        obtain ⟨turns, hascent, rfl, hx⟩ := ascent_of_walk _ _ hle hclimb
        rw [along_climbBoth] at hx
        obtain ⟨hfr, hsr⟩ := Prod.mk.inj hx
        exact ⟨first, turns, rfl, hascent, hfr, hsr⟩
  · rintro ⟨first, turns, hnodes, hascent, hfr, hsr⟩
    have hwalk := walk_of_ascent
      (fun c (r : Hash × Hash) => (nodeHash sha256 c r.1, nodeHash sha256 c r.2))
      (fun c r => (r.1, nodeHash sha256 r.2 c)) hascent (first, first)
    rw [along_climbBoth, hfr, hsr] at hwalk
    have hclimb : climbBoth sha256 (turns.map Prod.snd)
        (shiftOdd (proof.oldSize - 1) (proof.newSize - 1)).1
        (shiftOdd (proof.oldSize - 1) (proof.newSize - 1)).2 (first, first) =
        some (0, oldRoot.bytes, newRoot.bytes) := hwalk
    rw [hnodes]
    simp [hclimb]

/-- The pairs that checking the path against the old root hashes. -/
def ConsistencyProof.pairs (proof : ConsistencyProof) (oldRoot : MerkleRoot) :
    List (Hash × Hash) :=
  match proof.nodes oldRoot with
  | [] => []
  | first :: rest =>
    let (fnode, snode) := shiftOdd (proof.oldSize - 1) (proof.newSize - 1)
    (walk (fun c r => ((nodeHash sha256 c r.1.1, nodeHash sha256 c r.1.2),
        (c, r.1.1) :: (c, r.1.2) :: r.2))
      (fun c r => ((r.1.1, nodeHash sha256 r.1.2 c), (r.1.2, c) :: r.2))
      rest fnode snode ((first, first), [])).elim [] fun x => x.2.2

theorem along_bothPairs (turns : List (Turn Hash)) (fr sr : Hash) (ps : List (Hash × Hash))
    (p : Hash × Hash) :
    p ∈ (along (fun c (r : (Hash × Hash) × List (Hash × Hash)) =>
        ((nodeHash sha256 c r.1.1, nodeHash sha256 c r.1.2), (c, r.1.1) :: (c, r.1.2) :: r.2))
      (fun c r => ((r.1.1, nodeHash sha256 r.1.2 c), (r.1.2, c) :: r.2)) turns
      ((fr, sr), ps)).2 ↔
    p ∈ joins (nodeHash sha256) (lefts turns) fr ∨ p ∈ joins (nodeHash sha256) turns sr ∨
      p ∈ ps := by
  induction turns generalizing fr sr ps with
  | nil => simp [along, lefts, joins]
  | cons t turns ih =>
    obtain ⟨side, c⟩ := t
    cases side with
    | left =>
      refine (ih (nodeHash sha256 c fr) (nodeHash sha256 c sr)
        ((c, fr) :: (c, sr) :: ps)).trans ?_
      have hlefts : lefts ((.left, c) :: turns) = (.left, c) :: lefts turns := by simp [lefts]
      simp only [hlefts, joins, List.mem_cons]
      tauto
    | right =>
      refine (ih fr (nodeHash sha256 sr c) ((sr, c) :: ps)).trans ?_
      have hlefts : lefts ((.right, c) :: turns) = lefts turns := by simp [lefts]
      simp only [hlefts, joins, List.mem_cons]
      tauto

theorem ConsistencyProof.mem_pairs {proof : ConsistencyProof} {oldRoot : MerkleRoot}
    {first : Hash} {turns : List (Turn Hash)}
    (hnodes : proof.nodes oldRoot = first :: turns.map Prod.snd)
    (ascent : Ascent (shiftOdd (proof.oldSize - 1) (proof.newSize - 1)).1
      (shiftOdd (proof.oldSize - 1) (proof.newSize - 1)).2 turns) (p : Hash × Hash) :
    p ∈ proof.pairs sha256 oldRoot ↔
      p ∈ joins (nodeHash sha256) (lefts turns) first ∨
        p ∈ joins (nodeHash sha256) turns first := by
  unfold ConsistencyProof.pairs
  rw [hnodes]
  simp only [walk_of_ascent _ _ ascent, Option.elim_some, along_bothPairs, List.not_mem_nil,
    or_false]

/-- The subproof of a prefix checks out against the two roots. -/
theorem subproof_verifies {leaves : List LeafHash} {m : Nat} (hpos : 0 < m)
    (hle : m ≤ leaves.length) :
    (⟨m, leaves.length, subproof sha256 leaves m true⟩ : ConsistencyProof).verify sha256
      (merkleRoot sha256 (leaves.take m)) (merkleRoot sha256 leaves) = true := by
  rcases Nat.lt_or_eq_of_le hle with hlt | rfl
  · obtain ⟨first, turns, hascent, hpath, hold, hnew⟩ := subproof_ascent sha256 hpos hlt
    refine (ConsistencyProof.verify_iff sha256 (by show m ≠ 0; omega) hlt _ _).mpr
      ⟨first, turns, ?_, hascent, hold.symm, hnew.symm⟩
    rw [← hpath, ← subproof_seed sha256 hpos (Or.inl hlt)]
    rfl
  · rw [ConsistencyProof.verify, if_neg (by simp only; omega), if_pos rfl, List.take_length,
      subproof_whole]
    simp

/-- The proof built for a prefix is accepted, and an accepted proof between the roots of two
lists makes the old one a prefix of the new: for any path, where SHA-256 does not collide on
what the trees and the check hash. -/
theorem consistency_proofs :
    (∀ (leaves : List LeafHash) (m : Nat), 1 ≤ m → m ≤ leaves.length → ∃ proof,
      proveConsistency sha256 leaves m = .ok proof ∧ proof.oldSize = m ∧
      proof.newSize = leaves.length ∧
      proof.verify sha256 (merkleRoot sha256 (leaves.take m)) (merkleRoot sha256 leaves) = true) ∧
    ∀ (proof : ConsistencyProof) (old new : List LeafHash), old.length = proof.oldSize →
      new.length = proof.newSize →
      Distinct (nodeHash sha256) {p | p ∈ hashed sha256 old ∨ p ∈ hashed sha256 new ∨
        p ∈ proof.pairs sha256 (merkleRoot sha256 old)} →
      proof.verify sha256 (merkleRoot sha256 old) (merkleRoot sha256 new) = true →
      proof.oldSize ≤ proof.newSize ∧ old = new.take proof.oldSize := by
  constructor
  · intro leaves m hpos hle
    refine ⟨⟨m, leaves.length, subproof sha256 leaves m true⟩, ?_, rfl, rfl, ?_⟩
    · rw [proveConsistency, if_neg (by omega), if_neg (by omega)]
    · exact subproof_verifies sha256 hpos hle
  · intro proof old new hold hnew hS hverify
    by_cases hbad : proof.oldSize > proof.newSize ∨ proof.oldSize = 0
    · rw [ConsistencyProof.verify, if_pos hbad] at hverify
      cases hverify
    have hne : old ≠ [] := List.ne_nil_of_length_pos (by omega)
    have hne' : new ≠ [] := List.ne_nil_of_length_pos (by omega)
    have hlo : (bytesOf old).length = proof.oldSize := by rw [List.length_map, hold]
    have hln : (bytesOf new).length = proof.newSize := by rw [List.length_map, hnew]
    have ho : ∀ p ∈ levelPairs (nodeHash sha256) (bytesOf old), p ∈ hashed sha256 old :=
      fun p hp => (hashed_eq sha256 old p).mpr hp
    have hn : ∀ p ∈ levelPairs (nodeHash sha256) (bytesOf new), p ∈ hashed sha256 new :=
      fun p hp => (hashed_eq sha256 new p).mpr hp
    refine ⟨by omega, bytesOf_injective ?_⟩
    rw [show bytesOf (new.take proof.oldSize) = (bytesOf new).take proof.oldSize from
      List.map_take, ← hlo]
    rcases Nat.lt_or_eq_of_le (show proof.oldSize ≤ proof.newSize by omega) with hlt | hsame
    · obtain ⟨first, turns, hnodes, hascent, hfr, hsr⟩ :=
        (ConsistencyProof.verify_iff sha256 (by omega) hlt _ _).mp hverify
      have hpairs := ConsistencyProof.mem_pairs sha256 hnodes hascent
      refine @prefix_of_ascent sha256 _ hS _ _ (by omega) (by omega)
        (fun p hp => Or.inl (ho p hp)) (fun p hp => Or.inr (Or.inl (hn p hp)))
        turns (by rwa [hlo, hln]) first (fun p hp => Or.inr (Or.inr ((hpairs p).mpr (Or.inl hp))))
        (fun p hp => Or.inr (Or.inr ((hpairs p).mpr (Or.inr hp)))) ?_ ?_
      · rw [top_bytesOf sha256 hne, hfr]
        rfl
      · rw [top_bytesOf sha256 hne', hsr]
        rfl
    · rw [ConsistencyProof.verify, if_neg hbad, if_pos hsame] at hverify
      simp only [Bool.and_eq_true, beq_iff_eq] at hverify
      have hroots : mth sha256 old = mth sha256 new := congrArg MerkleRoot.bytes hverify.2
      rw [hlo, hsame, ← hln, List.take_length]
      refine top_injective (nodeHash sha256) hS (by omega) (fun p hp => Or.inl (ho p hp))
        (fun p hp => Or.inr (Or.inl (hn p hp))) ?_
      rw [top_bytesOf sha256 hne, top_bytesOf sha256 hne', hroots]

namespace Sample

def grownProof : ConsistencyProof := ⟨2, 3, [(leafHash treeSha 3).bytes]⟩

def twoLeaves : List LeafHash := [1, 2].map (leafHash treeSha)

theorem merkleRoot_twoLeaves : merkleRoot treeSha twoLeaves = ⟨firstNode⟩ := by
  rw [← firstNode_eq]
  exact congrArg MerkleRoot.mk (mth_pair _ _ _)

theorem grownProof_nodes : grownProof.nodes ⟨firstNode⟩ =
    firstNode :: [((.right, (leafHash treeSha 3).bytes) : Turn Hash)].map Prod.snd := by
  rw [ConsistencyProof.nodes, if_pos (by decide)]
  rfl

theorem grownProof_ascent : Ascent (shiftOdd (grownProof.oldSize - 1) (grownProof.newSize - 1)).1
    (shiftOdd (grownProof.oldSize - 1) (grownProof.newSize - 1)).2
    [((.right, (leafHash treeSha 3).bytes) : Turn Hash)] := by
  have hshift : shiftOdd (grownProof.oldSize - 1) (grownProof.newSize - 1) = (0, 1) := by
    rw [show grownProof.oldSize - 1 = 1 from rfl, show grownProof.newSize - 1 = 2 from rfl,
      shiftOdd_odd (by decide), shiftOdd_even (by decide)]
  rw [hshift]
  exact .right _ (by decide) (by decide) .root

end Sample

theorem two_leaves_extended :
    2 ≤ 3 ∧ Sample.twoLeaves = Sample.threeLeaves.take 2 := by
  refine (consistency_proofs Sample.treeSha).2 Sample.grownProof Sample.twoLeaves
    Sample.threeLeaves rfl rfl (Sample.distinct_threeLeaves ?_) ?_
  · have hpairs := ConsistencyProof.mem_pairs Sample.treeSha Sample.grownProof_nodes
      Sample.grownProof_ascent
    simp only [Sample.merkleRoot_twoLeaves, Sample.hashed_threeLeaves, hpairs,
      show hashed Sample.treeSha Sample.twoLeaves = _ from hashed_pair _ _ _,
      Set.mem_ofPred_eq, lefts, joins, List.filter, List.mem_cons, List.not_mem_nil, or_false]
    rintro p (h | h | h | h)
    · exact Or.inr h
    · exact h
    · simp [joins] at h
    · exact Or.inl h
  · rw [Sample.merkleRoot_twoLeaves, Sample.merkleRoot_threeLeaves]
    exact (ConsistencyProof.verify_iff _ (by decide) (by decide) _ _).mpr
      ⟨_, _, Sample.grownProof_nodes, Sample.grownProof_ascent, rfl, rfl⟩

end Clockchain.Anchor
