import Clockchain.Levels
import Clockchain.V1.Wire

/-!
# The Merkle accumulator

`cc-anchor/src/merkle.rs`: the tree over a list of leaves, the two proof builders and the
two verifiers. Sizes and indices are `Nat`; the code's `u64` only shifts them right and
takes one from what is not zero.
-/

namespace Clockchain.Anchor
open Codec V1
set_option autoImplicit false

variable (sha256 : List UInt8 → Hash)

structure LeafHash where
  bytes : Hash
  deriving Repr, DecidableEq

structure MerkleRoot where
  bytes : Hash
  deriving Repr, DecidableEq

def leafPrefix : UInt8 := 0x00
def nodePrefix : UInt8 := 0x01

def leafHash (id : Hash) : LeafHash := ⟨sha256 (leafPrefix :: beBytes 32 id.toNat)⟩

def nodeHash (left right : Hash) : Hash :=
  sha256 (nodePrefix :: (beBytes 32 left.toNat ++ beBytes 32 right.toNat))

/-- `1 << (BITS - 1 - (n - 1).leading_zeros())`, for `n > 1`. -/
def splitPoint (n : Nat) : Nat := 1 <<< (n - 1).log2

theorem splitPoint_eq (n : Nat) : splitPoint n = 2 ^ (n - 1).log2 := Nat.one_shiftLeft _

theorem splitPoint_pos (n : Nat) : 0 < splitPoint n := by
  rw [splitPoint_eq]
  exact Nat.two_pow_pos _

theorem splitPoint_lt {n : Nat} (h : 1 < n) : splitPoint n < n := by
  have := Nat.log2_self_le (n := n - 1) (by omega)
  rw [splitPoint_eq]
  omega

def mth (leaves : List LeafHash) : Hash :=
  if _ : leaves.length = 0 then sha256 []
  else if _ : leaves.length = 1 then leaves[0].bytes
  else
    let k := splitPoint leaves.length
    nodeHash sha256 (mth (leaves.take k)) (mth (leaves.drop k))
termination_by leaves.length
decreasing_by
  all_goals
    have := splitPoint_pos leaves.length
    have := splitPoint_lt (n := leaves.length) (by omega)
    simp only [List.length_take, List.length_drop]
    omega

def merkleRoot (leaves : List LeafHash) : MerkleRoot := ⟨mth sha256 leaves⟩

inductive ProofError where
  | indexOutOfRange (index treeSize : Nat)
  | oldSizeExceedsTree (oldSize treeSize : Nat)
  | emptyOldTree
  deriving Repr, DecidableEq

structure InclusionProof where
  leafIndex : Nat
  treeSize : Nat
  path : List Hash
  deriving Repr, DecidableEq

/-- `while fnode != 0 && fnode & 1 == 0`. -/
def shiftEven (fnode snode : Nat) : Nat × Nat :=
  if _ : fnode ≠ 0 ∧ fnode &&& 1 = 0 then shiftEven (fnode >>> 1) (snode >>> 1)
  else (fnode, snode)
termination_by fnode
decreasing_by
  simp only [Nat.shiftRight_one]
  omega

/-- The loop both verifiers run over a path; `none` is the early `return false`. -/
def walk {α : Type} (left right : Hash → α → α) : List Hash → Nat → Nat → α → Option (Nat × α)
  | [], _, snode, r => some (snode, r)
  | p :: path, fnode, snode, r =>
    if snode = 0 then none
    else if fnode &&& 1 = 1 ∨ fnode = snode then
      let (fnode, snode) := if fnode &&& 1 = 0 then shiftEven fnode snode else (fnode, snode)
      walk left right path (fnode >>> 1) (snode >>> 1) (left p r)
    else
      walk left right path (fnode >>> 1) (snode >>> 1) (right p r)

def climb : List Hash → Nat → Nat → Hash → Option (Nat × Hash) :=
  walk (fun p r => nodeHash sha256 p r) (fun p r => nodeHash sha256 r p)

def InclusionProof.verify (proof : InclusionProof) (leaf : LeafHash) (root : MerkleRoot) : Bool :=
  if proof.leafIndex ≥ proof.treeSize then false
  else
    match climb sha256 proof.path proof.leafIndex (proof.treeSize - 1) leaf.bytes with
    | none => false
    | some (snode, r) => snode == 0 && r == root.bytes

def auditPath (leaves : List LeafHash) (m : Nat) : List Hash :=
  if _ : leaves.length ≤ 1 then []
  else
    let k := splitPoint leaves.length
    if m < k then auditPath (leaves.take k) m ++ [mth sha256 (leaves.drop k)]
    else auditPath (leaves.drop k) (m - k) ++ [mth sha256 (leaves.take k)]
termination_by leaves.length
decreasing_by
  all_goals
    have := splitPoint_pos leaves.length
    have := splitPoint_lt (n := leaves.length) (by omega)
    simp only [List.length_take, List.length_drop]
    omega

def proveInclusion (leaves : List LeafHash) (index : Nat) : Except ProofError InclusionProof :=
  let n := leaves.length
  if index ≥ n then .error (.indexOutOfRange index n)
  else .ok ⟨index, n, auditPath sha256 leaves index⟩

structure ConsistencyProof where
  oldSize : Nat
  newSize : Nat
  path : List Hash
  deriving Repr, DecidableEq

/-- `while fnode & 1 == 1`. -/
def shiftOdd (fnode snode : Nat) : Nat × Nat :=
  if _ : fnode &&& 1 = 1 then shiftOdd (fnode >>> 1) (snode >>> 1) else (fnode, snode)
termination_by fnode
decreasing_by
  rename_i h
  rw [Nat.and_one_is_mod] at h
  rw [Nat.shiftRight_one]
  omega

/-- `fr` is the old root's walk and `sr` the new root's. -/
def climbBoth : List Hash → Nat → Nat → Hash × Hash → Option (Nat × Hash × Hash) :=
  walk (fun c r => (nodeHash sha256 c r.1, nodeHash sha256 c r.2))
    (fun c r => (r.1, nodeHash sha256 r.2 c))

/-- When the old tree is a perfect subtree its root is not in the path. -/
def ConsistencyProof.nodes (proof : ConsistencyProof) (oldRoot : MerkleRoot) : List Hash :=
  (if proof.oldSize.isPowerOfTwo then [oldRoot.bytes] else []) ++ proof.path

def ConsistencyProof.verify (proof : ConsistencyProof) (oldRoot newRoot : MerkleRoot) : Bool :=
  if proof.oldSize > proof.newSize ∨ proof.oldSize = 0 then false
  else if proof.oldSize = proof.newSize then proof.path.isEmpty && oldRoot == newRoot
  else
    match proof.nodes oldRoot with
    | [] => false
    | first :: rest =>
      let (fnode, snode) := shiftOdd (proof.oldSize - 1) (proof.newSize - 1)
      match climbBoth sha256 rest fnode snode (first, first) with
      | none => false
      | some (snode, fr, sr) => snode == 0 && fr == oldRoot.bytes && sr == newRoot.bytes

/-- `SUBPROOF(m, D[n], b)`; `k` is only asked for when `m` is below the length. -/
def subproof (leaves : List LeafHash) (m : Nat) (b : Bool) : List Hash :=
  let n := leaves.length
  if m = n then if b then [] else [mth sha256 leaves]
  else if _ : n ≤ 1 then []
  else
    let k := splitPoint n
    if m ≤ k then subproof (leaves.take k) m b ++ [mth sha256 (leaves.drop k)]
    else subproof (leaves.drop k) (m - k) false ++ [mth sha256 (leaves.take k)]
termination_by leaves.length
decreasing_by
  all_goals
    have := splitPoint_pos leaves.length
    have := splitPoint_lt (n := leaves.length) (by omega)
    simp only [List.length_take, List.length_drop]
    omega

def proveConsistency (leaves : List LeafHash) (oldSize : Nat) :
    Except ProofError ConsistencyProof :=
  let n := leaves.length
  if oldSize = 0 then .error .emptyOldTree
  else if oldSize > n then .error (.oldSizeExceedsTree oldSize n)
  else .ok ⟨oldSize, n, subproof sha256 leaves oldSize true⟩

end Clockchain.Anchor
