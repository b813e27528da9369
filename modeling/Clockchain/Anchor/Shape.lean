import Clockchain.Anchor.Merkle

/-!
# The tree read level by level

The prover splits at the largest power of two below the size; the verifiers shift an index
from a leaf to the root. Both follow the levels: the root of a list is the root of the level
above it, an audit path is one sibling of its level and the audit path above, and the pairs
that are hashed are those of each level.
-/

namespace Clockchain.Anchor
open Codec V1 Levels
set_option autoImplicit false

variable (sha256 : List UInt8 → Hash)

/-- A node of the level above. -/
def joined (left right : LeafHash) : LeafHash := ⟨nodeHash sha256 left.bytes right.bytes⟩

abbrev levelUp (leaves : List LeafHash) : List LeafHash := pairUp (joined sha256) leaves

theorem splitPoint_two : splitPoint 2 = 1 := by decide

theorem splitPoint_double {n : Nat} (h : 2 < n) :
    splitPoint n = 2 * splitPoint ((n + 1) / 2) := by
  have hlog : (n - 1).log2 = ((n + 1) / 2 - 1).log2 + 1 := by
    rw [Nat.log2_def, if_pos (by omega), show (n - 1) / 2 = (n + 1) / 2 - 1 by omega]
  rw [splitPoint_eq, splitPoint_eq, hlog, Nat.pow_succ, Nat.mul_comm]

theorem mth_singleton (leaf : LeafHash) : mth sha256 [leaf] = leaf.bytes := by
  simp [mth]

theorem mth_split {leaves : List LeafHash} (h : 1 < leaves.length) :
    mth sha256 leaves = nodeHash sha256 (mth sha256 (leaves.take (splitPoint leaves.length)))
      (mth sha256 (leaves.drop (splitPoint leaves.length))) := by
  rw [mth, dif_neg (by omega), dif_neg (by omega)]

theorem levelUp_short {leaves : List LeafHash} (h : leaves.length ≤ 1) :
    levelUp sha256 leaves = leaves := by
  rcases leaves with _ | ⟨leaf, _ | ⟨next, rest⟩⟩
  · rfl
  · rfl
  · simp at h

/-- Both halves of a split go up a level by themselves. -/
theorem levelUp_split {leaves : List LeafHash} (h : 2 < leaves.length) :
    splitPoint (levelUp sha256 leaves).length = splitPoint ((leaves.length + 1) / 2) ∧
    (levelUp sha256 leaves).take (splitPoint ((leaves.length + 1) / 2)) =
      levelUp sha256 (leaves.take (splitPoint leaves.length)) ∧
    (levelUp sha256 leaves).drop (splitPoint ((leaves.length + 1) / 2)) =
      levelUp sha256 (leaves.drop (splitPoint leaves.length)) := by
  refine ⟨?_, ?_, ?_⟩
  · rw [length_pairUp]
  · rw [take_pairUp, splitPoint_double h]
  · rw [drop_pairUp, splitPoint_double h]

theorem two_leaves {leaves : List LeafHash} (h : leaves.length = 2) :
    ∃ left right, leaves = [left, right] := List.length_eq_two.mp h

theorem mth_levelUp (leaves : List LeafHash) :
    mth sha256 (levelUp sha256 leaves) = mth sha256 leaves := by
  induction hn : leaves.length using Nat.strong_induction_on generalizing leaves with
  | _ n ih =>
    subst hn
    rcases Nat.lt_trichotomy leaves.length 2 with hshort | htwo | hlong
    · rw [levelUp_short sha256 (by omega)]
    · obtain ⟨left, right, rfl⟩ := two_leaves htwo
      rw [@mth_split sha256 [left, right] (by simp)]
      simp [pairUp, splitPoint_two, mth_singleton, joined]
    · have hlt := splitPoint_lt (n := leaves.length) (by omega)
      have hpos := splitPoint_pos leaves.length
      obtain ⟨hsplit, htake, hdrop⟩ := levelUp_split sha256 hlong
      rw [@mth_split sha256 (levelUp sha256 leaves) (by rw [length_pairUp]; omega),
        @mth_split sha256 leaves (by omega), hsplit, htake, hdrop]
      rw [ih _ (by rw [List.length_take]; omega) _ rfl,
        ih _ (by rw [List.length_drop]; omega) _ rfl]

theorem auditPath_short {leaves : List LeafHash} (h : leaves.length ≤ 1) (m : Nat) :
    auditPath sha256 leaves m = [] := by
  rw [auditPath, dif_pos h]

theorem auditPath_left {leaves : List LeafHash} (h : 1 < leaves.length) {m : Nat}
    (hm : m < splitPoint leaves.length) :
    auditPath sha256 leaves m = auditPath sha256 (leaves.take (splitPoint leaves.length)) m ++
      [mth sha256 (leaves.drop (splitPoint leaves.length))] := by
  rw [auditPath, dif_neg (by omega), if_pos hm]

theorem auditPath_right {leaves : List LeafHash} (h : 1 < leaves.length) {m : Nat}
    (hm : ¬ m < splitPoint leaves.length) :
    auditPath sha256 leaves m =
      auditPath sha256 (leaves.drop (splitPoint leaves.length)) (m - splitPoint leaves.length) ++
      [mth sha256 (leaves.take (splitPoint leaves.length))] := by
  rw [auditPath, dif_neg (by omega), if_neg hm]

theorem auditPath_levelUp {leaves : List LeafHash} {m : Nat} (hm : m < leaves.length) :
    auditPath sha256 leaves m =
      leaves[sibling m]?.toList.map LeafHash.bytes ++
        auditPath sha256 (levelUp sha256 leaves) (m / 2) := by
  induction hn : leaves.length using Nat.strong_induction_on generalizing leaves m with
  | _ n ih =>
    subst hn
    rcases Nat.lt_trichotomy leaves.length 2 with hshort | htwo | hlong
    · obtain rfl : m = 0 := by omega
      have hnone : leaves[sibling 0]? = none := by
        apply List.getElem?_eq_none
        have : sibling 0 = 1 := rfl
        omega
      rw [levelUp_short sha256 (by omega), auditPath_short sha256 (by omega), hnone]
      rfl
    · obtain ⟨left, right, rfl⟩ := two_leaves htwo
      rw [@auditPath_short sha256 (levelUp sha256 [left, right]) (by simp [pairUp])]
      have hone : splitPoint [left, right].length = 1 := splitPoint_two
      rcases (show m = 0 ∨ m = 1 by simp at hm; omega) with rfl | rfl
      · rw [auditPath_left sha256 (by simp) (by omega), hone]
        simp [auditPath_short, mth_singleton, sibling]
      · rw [auditPath_right sha256 (by simp) (by omega), hone]
        simp [auditPath_short, mth_singleton, sibling]
    · have hlt := splitPoint_lt (n := leaves.length) (by omega)
      have hpos := splitPoint_pos leaves.length
      have heven := splitPoint_double hlong
      obtain ⟨hsplit, htake, hdrop⟩ := levelUp_split sha256 hlong
      have hup : 1 < (levelUp sha256 leaves).length := by rw [length_pairUp]; omega
      by_cases hk : m < splitPoint leaves.length
      · have hk' : m / 2 < splitPoint (levelUp sha256 leaves).length := by rw [hsplit]; omega
        rw [auditPath_left sha256 (by omega) hk, auditPath_left sha256 hup hk',
          hsplit, htake, hdrop, mth_levelUp, ih _ (by rw [List.length_take]; omega)
            (by rw [List.length_take]; omega) rfl, List.append_assoc]
        rw [List.getElem?_take_of_lt (by simp only [sibling]; split <;> omega)]
      · have hk' : ¬ m / 2 < splitPoint (levelUp sha256 leaves).length := by rw [hsplit]; omega
        rw [auditPath_right sha256 (by omega) hk, auditPath_right sha256 hup hk',
          hsplit, htake, hdrop, mth_levelUp, ih _ (by rw [List.length_drop]; omega)
            (by rw [List.length_drop]; omega) rfl, List.append_assoc]
        rw [List.getElem?_drop]
        have hsib : splitPoint leaves.length + sibling (m - splitPoint leaves.length) =
            sibling m := by
          simp only [sibling]
          split <;> split <;> omega
        have hhalf : (m - splitPoint leaves.length) / 2 =
            m / 2 - splitPoint ((leaves.length + 1) / 2) := by omega
        rw [hsib, hhalf]

theorem le_two_splitPoint (n : Nat) : n ≤ 2 * splitPoint n := by
  have h : n - 1 < 2 ^ ((n - 1).log2 + 1) := Nat.lt_log2_self
  rw [Nat.pow_succ] at h
  rw [splitPoint_eq]
  omega

/-- No power of two lies between a split point and its size. -/
theorem not_power_of_split {m n : Nat} (hk : splitPoint n < m) (hm : m < n) :
    ¬ m.isPowerOfTwo := by
  rintro ⟨j, rfl⟩
  have hle := le_two_splitPoint n
  rw [splitPoint_eq] at hk hle
  have hlow := (Nat.pow_lt_pow_iff_right (by omega)).mp hk
  have hhigh : 2 ^ j < 2 ^ ((n - 1).log2 + 1) := by
    rw [Nat.pow_succ]
    omega
  have := (Nat.pow_lt_pow_iff_right (by omega)).mp hhigh
  omega

theorem subproof_whole (leaves : List LeafHash) (b : Bool) :
    subproof sha256 leaves leaves.length b = if b then [] else [mth sha256 leaves] := by
  rw [subproof, if_pos rfl]

theorem subproof_left {leaves : List LeafHash} {m : Nat} (hm : m ≤ splitPoint leaves.length)
    (hlt : m < leaves.length) (hpos : 0 < m) (b : Bool) :
    subproof sha256 leaves m b = subproof sha256 (leaves.take (splitPoint leaves.length)) m b ++
      [mth sha256 (leaves.drop (splitPoint leaves.length))] := by
  rw [subproof, if_neg (by omega), dif_neg (by omega), if_pos hm]

theorem subproof_right {leaves : List LeafHash} {m : Nat} (hm : splitPoint leaves.length < m)
    (hlt : m < leaves.length) (b : Bool) :
    subproof sha256 leaves m b =
      subproof sha256 (leaves.drop (splitPoint leaves.length)) (m - splitPoint leaves.length)
        false ++ [mth sha256 (leaves.take (splitPoint leaves.length))] := by
  rw [subproof, if_neg (by omega), dif_neg (by omega), if_neg (by omega)]

/-- What the flag withholds is the root of a perfect old tree. -/
theorem subproof_seed {leaves : List LeafHash} {m : Nat} (hpos : 0 < m)
    (hm : m < leaves.length ∨ m = leaves.length ∧ m.isPowerOfTwo) :
    (if m.isPowerOfTwo then [mth sha256 (leaves.take m)] else []) ++
      subproof sha256 leaves m true = subproof sha256 leaves m false := by
  induction hn : leaves.length using Nat.strong_induction_on generalizing leaves m with
  | _ n ih =>
    subst hn
    rcases hm with hlt | ⟨rfl, hpow⟩
    · have hsplit := splitPoint_lt (n := leaves.length) (by omega)
      by_cases hk : m ≤ splitPoint leaves.length
      · have htaken : (leaves.take (splitPoint leaves.length)).length =
            splitPoint leaves.length := by
          rw [List.length_take]
          omega
        have hinner := @ih _ (by omega) (leaves.take (splitPoint leaves.length)) _ hpos
          (by
            rcases Nat.lt_or_eq_of_le hk with hlow | hsame
            · exact Or.inl (by omega)
            · exact Or.inr ⟨by omega, _, hsame.trans (splitPoint_eq _)⟩) htaken
        rw [List.take_take, Nat.min_eq_left hk] at hinner
        rw [subproof_left sha256 hk hlt hpos, subproof_left sha256 hk hlt hpos, ← hinner,
          List.append_assoc]
      · rw [if_neg (not_power_of_split (by omega) hlt), subproof_right sha256 (by omega) hlt,
          subproof_right sha256 (by omega) hlt, List.nil_append]
    · rw [if_pos hpow, subproof_whole, subproof_whole, List.take_length]
      rfl

/-- An even prefix is proved on the level above. -/
theorem subproof_levelUp {leaves : List LeafHash} {m : Nat} (hpos : 0 < m)
    (hm : m ≤ leaves.length) (heven : m % 2 = 0) :
    subproof sha256 leaves m false = subproof sha256 (levelUp sha256 leaves) (m / 2) false := by
  induction hn : leaves.length using Nat.strong_induction_on generalizing leaves m with
  | _ n ih =>
    subst hn
    have hup : (levelUp sha256 leaves).length = (leaves.length + 1) / 2 := length_pairUp _ _
    rcases Nat.lt_or_eq_of_le hm with hlt | rfl
    · have hlong : 2 < leaves.length := by omega
      have hsplitlt := splitPoint_lt (n := leaves.length) (by omega)
      have hsplitpos := splitPoint_pos leaves.length
      have hdouble := splitPoint_double hlong
      obtain ⟨hsplit, htake, hdrop⟩ := levelUp_split sha256 hlong
      by_cases hk : m ≤ splitPoint leaves.length
      · rw [subproof_left sha256 hk hlt hpos, @subproof_left sha256
          (levelUp sha256 leaves) _ (by rw [hsplit]; omega) (by omega) (by omega),
          hsplit, htake, hdrop, mth_levelUp, ih _ (by rw [List.length_take]; omega) hpos
            (by rw [List.length_take]; omega) heven rfl]
      · rw [subproof_right sha256 (by omega) hlt, @subproof_right sha256
          (levelUp sha256 leaves) _ (by rw [hsplit]; omega) (by omega),
          hsplit, htake, hdrop, mth_levelUp, ih _ (by rw [List.length_drop]; omega) (by omega)
            (by rw [List.length_drop]; omega) (by omega) rfl,
          show (m - splitPoint leaves.length) / 2 =
            m / 2 - splitPoint ((leaves.length + 1) / 2) by omega]
    · have hhalf : leaves.length / 2 = (levelUp sha256 leaves).length := by omega
      rw [subproof_whole, hhalf, subproof_whole, mth_levelUp]

/-- The proof of an odd prefix is its last leaf and that leaf's audit path. -/
theorem subproof_odd {leaves : List LeafHash} {m : Nat} (hodd : m % 2 = 1)
    (hm : m < leaves.length ∨ m = 1 ∧ leaves.length = 1) :
    subproof sha256 leaves m false =
      leaves[m - 1]?.toList.map LeafHash.bytes ++ auditPath sha256 leaves (m - 1) := by
  induction hn : leaves.length using Nat.strong_induction_on generalizing leaves m with
  | _ n ih =>
    subst hn
    rcases hm with hlt | ⟨rfl, hone⟩
    · have hsplitlt := splitPoint_lt (n := leaves.length) (by omega)
      have hsplitpos := splitPoint_pos leaves.length
      have hparity : leaves.length = 2 ∨ splitPoint leaves.length % 2 = 0 := by
        by_cases htwo : leaves.length = 2
        · exact Or.inl htwo
        · have := splitPoint_double (n := leaves.length) (by omega)
          omega
      by_cases hk : m ≤ splitPoint leaves.length
      · rw [subproof_left sha256 hk hlt (by omega), auditPath_left sha256 (by omega) (by omega),
          ih _ (by rw [List.length_take]; omega) hodd ?_ rfl, List.append_assoc,
          List.getElem?_take_of_lt (by omega)]
        rw [List.length_take]
        omega
      · rw [subproof_right sha256 (by omega) hlt, auditPath_right sha256 (by omega) (by omega),
          ih _ (by rw [List.length_drop]; omega) ?_ ?_ rfl, List.append_assoc,
          List.getElem?_drop, show splitPoint leaves.length + (m - splitPoint leaves.length - 1) =
            m - 1 by omega, show m - 1 - splitPoint leaves.length =
            m - splitPoint leaves.length - 1 by omega]
        · omega
        · rw [List.length_drop]
          omega
    · obtain ⟨leaf, rfl⟩ := List.length_eq_one_iff.mp hone
      rw [auditPath_short sha256 (by simp), show subproof sha256 [leaf] 1 false = _ from
        subproof_whole sha256 [leaf] false, mth_singleton]
      rfl

/-- The pairs `mth` hashes. -/
def hashed (leaves : List LeafHash) : List (Hash × Hash) :=
  if _ : leaves.length ≤ 1 then []
  else
    let k := splitPoint leaves.length
    (mth sha256 (leaves.take k), mth sha256 (leaves.drop k)) ::
      (hashed (leaves.take k) ++ hashed (leaves.drop k))
termination_by leaves.length
decreasing_by
  all_goals
    have := splitPoint_pos leaves.length
    have := splitPoint_lt (n := leaves.length) (by omega)
    simp only [List.length_take, List.length_drop]
    omega

theorem hashed_short {leaves : List LeafHash} (h : leaves.length ≤ 1) :
    hashed sha256 leaves = [] := by
  rw [hashed, dif_pos h]

theorem hashed_split {leaves : List LeafHash} (h : 1 < leaves.length) :
    hashed sha256 leaves =
      (mth sha256 (leaves.take (splitPoint leaves.length)),
        mth sha256 (leaves.drop (splitPoint leaves.length))) ::
      (hashed sha256 (leaves.take (splitPoint leaves.length)) ++
        hashed sha256 (leaves.drop (splitPoint leaves.length))) := by
  rw [hashed, dif_neg (by omega)]

/-- A pair of leaves as the pair of hashes that is hashed. -/
def hashes (p : LeafHash × LeafHash) : Hash × Hash := (p.1.bytes, p.2.bytes)

theorem mem_hashed (leaves : List LeafHash) (p : Hash × Hash) :
    p ∈ hashed sha256 leaves ↔
      p ∈ (adjacent leaves).map hashes ∨ p ∈ hashed sha256 (levelUp sha256 leaves) := by
  induction hn : leaves.length using Nat.strong_induction_on generalizing leaves with
  | _ n ih =>
    subst hn
    rcases Nat.lt_trichotomy leaves.length 2 with hshort | htwo | hlong
    · rw [levelUp_short sha256 (by omega), hashed_short sha256 (by omega)]
      rcases leaves with _ | ⟨leaf, _ | ⟨next, rest⟩⟩
      · simp [adjacent]
      · simp [adjacent]
      · simp only [List.length_cons] at hshort
        omega
    · obtain ⟨left, right, rfl⟩ := two_leaves htwo
      rw [hashed_split sha256 (by simp), @hashed_short sha256 (levelUp _ _) (by simp [pairUp])]
      have hone : splitPoint [left, right].length = 1 := splitPoint_two
      rw [hone]
      simp [hashed_short, mth_singleton, adjacent, hashes]
    · have hlt := splitPoint_lt (n := leaves.length) (by omega)
      have hpos := splitPoint_pos leaves.length
      obtain ⟨hsplit, htake, hdrop⟩ := levelUp_split sha256 hlong
      rw [hashed_split sha256 (by omega),
        @hashed_split sha256 (levelUp sha256 leaves) (by rw [length_pairUp]; omega),
        hsplit, htake, hdrop, mth_levelUp, mth_levelUp,
        adjacent_split leaves (splitPoint ((leaves.length + 1) / 2)), ← splitPoint_double hlong]
      have htaken :=
        ih _ (by rw [List.length_take]; omega) (leaves.take (splitPoint leaves.length)) rfl
      have hdropped :=
        ih _ (by rw [List.length_drop]; omega) (leaves.drop (splitPoint leaves.length)) rfl
      simp only [List.mem_cons, List.mem_append, List.map_append, htaken, hdropped]
      tauto

/-! ## The model's tree and the levels -/

abbrev bytesOf (leaves : List LeafHash) : List Hash := leaves.map LeafHash.bytes

theorem bytes_injective : Function.Injective LeafHash.bytes := by
  intro a b h
  cases a
  cases b
  exact congrArg LeafHash.mk h

theorem bytesOf_injective : Function.Injective bytesOf :=
  List.map_injective_iff.mpr bytes_injective

theorem bytesOf_levelUp (leaves : List LeafHash) :
    bytesOf (levelUp sha256 leaves) = pairUp (nodeHash sha256) (bytesOf leaves) := by
  induction leaves using pairUp.induct with
  | case1 => rfl
  | case2 leaf => rfl
  | case3 left right rest ih => simp only [levelUp, pairUp, List.map_cons, joined, ih]

theorem adjacent_bytesOf (leaves : List LeafHash) :
    adjacent (bytesOf leaves) = (adjacent leaves).map hashes := by
  induction leaves using pairUp.induct with
  | case1 => rfl
  | case2 leaf => rfl
  | case3 left right rest ih => simp only [adjacent, List.map_cons, hashes, ih]

theorem top_bytesOf {leaves : List LeafHash} (h : leaves ≠ []) :
    top (nodeHash sha256) (bytesOf leaves) = some (mth sha256 leaves) := by
  induction hn : leaves.length using Nat.strong_induction_on generalizing leaves with
  | _ n ih =>
    subst hn
    have hpos := List.length_pos_iff.mpr h
    by_cases hone : leaves.length = 1
    · obtain ⟨leaf, rfl⟩ := List.length_eq_one_iff.mp hone
      rw [mth_singleton, top_short _ (by simp)]
      rfl
    · have hup : (levelUp sha256 leaves).length = (leaves.length + 1) / 2 := length_pairUp _ _
      rw [← top_pairUp, ← bytesOf_levelUp, ← mth_levelUp]
      exact ih _ (by omega) (List.ne_nil_of_length_pos (by omega)) rfl

theorem auditPath_eq {leaves : List LeafHash} {m : Nat} (hm : m < leaves.length) :
    auditPath sha256 leaves m = siblings (nodeHash sha256) (bytesOf leaves) m := by
  induction hn : leaves.length using Nat.strong_induction_on generalizing leaves m with
  | _ n ih =>
    subst hn
    by_cases hone : leaves.length ≤ 1
    · rw [auditPath_short sha256 hone, siblings_short _ (by simpa using hone)]
    · have hup : (levelUp sha256 leaves).length = (leaves.length + 1) / 2 := length_pairUp _ _
      rw [auditPath_levelUp sha256 hm, siblings_pairUp _ (by simpa using hone),
        ← bytesOf_levelUp, ih _ (by omega) (by omega) rfl, List.getElem?_map]
      cases leaves[sibling m]? <;> rfl

theorem hashed_eq (leaves : List LeafHash) (p : Hash × Hash) :
    p ∈ hashed sha256 leaves ↔ p ∈ levelPairs (nodeHash sha256) (bytesOf leaves) := by
  induction hn : leaves.length using Nat.strong_induction_on generalizing leaves with
  | _ n ih =>
    subst hn
    by_cases hone : leaves.length ≤ 1
    · rw [hashed_short sha256 hone, levelPairs, dif_pos (by simpa using hone)]
    · have hup : (levelUp sha256 leaves).length = (leaves.length + 1) / 2 := length_pairUp _ _
      rw [mem_hashed, mem_levelPairs, adjacent_bytesOf, ← bytesOf_levelUp,
        ih _ (by omega) _ rfl]

end Clockchain.Anchor
