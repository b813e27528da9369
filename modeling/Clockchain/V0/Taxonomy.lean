import Clockchain.V0.Gate

/-!
# The pinned taxonomy

`vendor/tt/taxonomy-v2.1.json`: the tables `cc-filter/build.rs` makes of its nodes, and the lookups
of `version.rs`.
-/

namespace Clockchain.V0.Authoring
open Publisher
set_option autoImplicit false

/-- What the tables take from a node. -/
structure TtNode where
  id : String
  lens : String
  parent : Option String
  supersededBy : Option String
  deriving Repr, DecidableEq

/-- The nodes of a bundle and the hash of its bytes. A retired node leaves its lens to its
successor. -/
structure Taxonomy where
  nodes : List TtNode
  sha256 : String
  distinct : (nodes.map TtNode.id).Nodup
  named : ∀ n ∈ nodes, filled n.id = true ∧ n.parent ≠ some ""
  heirs : ∀ n ∈ nodes, ∀ id, n.supersededBy = some id → ∃ m ∈ nodes, m.id = id ∧ m.lens = n.lens

namespace Taxonomy
variable (t : Taxonomy)

def node? (id : String) : Option TtNode := t.nodes.find? fun n => n.id = id

def isValidTtId (id : String) : Bool := (t.node? id).isSome

def supersededBy (id : String) : Option String := (t.node? id).bind TtNode.supersededBy

def lensOf (id : String) : Option String := (t.node? id).map TtNode.lens

def parentOf (id : String) : Option String := (t.node? id).bind TtNode.parent

/-- Some retirements from an id on. -/
def successor : Nat → String → String
  | 0, cur => cur
  | n + 1, cur =>
    match t.supersededBy cur with
    | some next => successor n next
    | none => cur

/-- `resolve_tt_id`. -/
def resolveTtId (id : String) : String := t.successor 8 id

/-- The ancestors of an id, the nearest first. -/
def ancestors : Nat → String → List String
  | 0, _ => []
  | n + 1, cur =>
    match t.parentOf cur with
    | some p => p :: ancestors n p
    | none => []

/-- `ancestors_of`. -/
def ancestorsOf (id : String) : List String := t.ancestors 8 id

/-- `is_ancestor_of`. -/
def isAncestorOf (maybe id : String) : Bool := maybe == id || (t.ancestorsOf id).contains maybe

/-- What the gate reads of the bundle. -/
def bundle (validate : Value → Except (List String) Value) : Bundle where
  isValidTtId := t.isValidTtId
  resolveTtId := t.resolveTtId
  lensOf := t.lensOf
  isAncestorOf := t.isAncestorOf
  sha256 := t.sha256
  validate := validate

variable {t} {id : String} {n : TtNode}

theorem node?_mem (h : t.node? id = some n) : n ∈ t.nodes ∧ n.id = id :=
  ⟨List.mem_of_find?_eq_some h, by simpa using List.find?_some h⟩

theorem node?_id (h : n ∈ t.nodes) : t.node? n.id = some n := Programs.find?_named t.distinct h

theorem isValidTtId_iff : t.isValidTtId id = true ↔ ∃ n ∈ t.nodes, n.id = id := by
  constructor
  · intro h
    obtain ⟨n, hn⟩ := Option.isSome_iff_exists.1 h
    exact ⟨n, node?_mem hn⟩
  · rintro ⟨n, hn, rfl⟩
    exact Option.isSome_iff_exists.2 ⟨n, node?_id hn⟩

/-- A node is not called by white space. -/
theorem filled_of_valid (h : t.isValidTtId id = true) : filled id = true := by
  obtain ⟨n, hn, rfl⟩ := isValidTtId_iff.1 h
  exact (t.named n hn).1

theorem lensOf_isSome : (t.lensOf id).isSome = t.isValidTtId id := Option.isSome_map

/-- What a node is retired for has its lens, so the lens of a retired node is its live one's. -/
theorem lensOf_successor (k : Nat) : t.lensOf (t.successor k id) = t.lensOf id := by
  induction k generalizing id with
  | zero => rfl
  | succ k ih =>
    rw [successor]
    cases hnext : t.supersededBy id with
    | none => rfl
    | some next =>
      obtain ⟨n, hn, hheir⟩ := Option.bind_eq_some_iff.1 hnext
      obtain ⟨m, hm, rfl, hlens⟩ := t.heirs n (node?_mem hn).1 next hheir
      change t.lensOf (t.successor k m.id) = t.lensOf id
      rw [ih, lensOf, lensOf, node?_id hm, hn, Option.map_some, Option.map_some, hlens]

theorem lensOf_resolveTtId : t.lensOf (t.resolveTtId id) = t.lensOf id := lensOf_successor 8

end Taxonomy

end Clockchain.V0.Authoring
