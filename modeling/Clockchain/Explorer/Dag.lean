import Clockchain.Explorer.Time
import Clockchain.Layers
import Clockchain.V1.Pinning

/-!
# The causal graph

`dag` of `web/explorer/js/model.js` on the rows of a projection. A ghost is added when the first
row that names it as a parent is read, and a pin is drawn only to a node that is already there: the
pins of a row read before its ghost are lost.
-/

namespace Clockchain.Explorer
open V0 (asBytes)
open V0.Publisher (Text hexDigits)
open V1 (Hash Crypto Candidates CollisionFree Envelope EventReading Kind Pins ProjectionState
  Projection Reason Signed)
set_option autoImplicit false

/-! ## The source -/

/-- `hex` of an id. The texts have one length and sort as the ids do, and below an id stands for
its text. -/
def hexId (id : Hash) : Text := hexDigits (asBytes id)

def subjectOf (r : EventReading) : Option Hash :=
  match r.envelope.subject with
  | some subject => some subject
  | none => if r.envelope.payload.kind = .genesis then some r.event else none

/-- `pins` of an envelope. -/
def pins (e : Envelope) : List Pins :=
  match e.payload with
  | .edgeAssert _ pins _ => [pins]
  | .edgeReaffirm _ _ new _ => [new]
  | _ => []

def pinSubjects (e : Envelope) : List Hash :=
  (pins e).flatMap fun p => [p.source.subject, p.target.subject]

def pinBases (e : Envelope) : List Hash :=
  (pins e).flatMap fun p => [p.source.basis, p.target.basis]

inductive NodeKind where
  | row (kind : Kind)
  | outside | missing
  deriving Repr, DecidableEq

inductive NodeState where
  | row (state : ProjectionState)
  | outside | missing
  deriving Repr, DecidableEq

structure Node where
  id : Hash
  kind : NodeKind
  state : NodeState
  reason : Reason
  subject : Option Hash
  ghost : Bool
  deriving Repr, DecidableEq

inductive LinkType where
  | parent | pin
  deriving Repr, DecidableEq

/-- `from` and `to`. -/
structure Link where
  source : Hash
  target : Hash
  type : LinkType
  deriving Repr, DecidableEq

structure Placed where
  node : Node
  depth : Nat
  lane : Nat
  deriving Repr, DecidableEq

structure Graph where
  nodes : List Placed
  links : List Link
  columns : Nat
  lanes : Nat
  deriving Repr, DecidableEq

inductive DagError where
  | cycle
  deriving Repr, DecidableEq

def keep (subject : Option Text) (r : EventReading) : Bool :=
  match subject with
  | none => true
  | some s => (subjectOf r).map hexId = some s ∨ s ∈ (pinSubjects r.envelope).map hexId

def rowNode (r : EventReading) : Node :=
  ⟨r.event, .row r.envelope.payload.kind, .row r.state, r.reason, subjectOf r, false⟩

/-- A parent that is not kept; it is `outside` when it is served. -/
def ghostNode (rows : List EventReading) (p : Hash) : Node :=
  if rows.any fun x => x.event = p then ⟨p, .outside, .outside, .none, none, true⟩
  else ⟨p, .missing, .missing, .none, none, true⟩

/-- `nodes.has`. -/
def hasNode (nodes : List Node) (id : Hash) : Bool := nodes.any fun n => n.id = id

/-- `nodes.set`. -/
def setNode (nodes : List Node) (n : Node) : List Node :=
  if hasNode nodes n.id then nodes.map fun m => if m.id = n.id then n else m else nodes ++ [n]

def addParent (rows : List EventReading) (id : Hash) (b : List Node × List Link) (p : Hash) :
    List Node × List Link :=
  (if hasNode b.1 p then b.1 else setNode b.1 (ghostNode rows p), b.2 ++ [⟨id, p, .parent⟩])

def addPin (id : Hash) (b : List Node × List Link) (basis : Hash) : List Node × List Link :=
  if hasNode b.1 basis then (b.1, b.2 ++ [⟨id, basis, .pin⟩]) else b

def addRow (rows : List EventReading) (b : List Node × List Link) (r : EventReading) :
    List Node × List Link :=
  (pinBases r.envelope).foldl (addPin r.event)
    (r.envelope.parents.foldl (addParent rows r.event) b)

/-- The nodes and the links of the kept rows. -/
def build (rows : List EventReading) (subject : Option Text) : List Node × List Link :=
  let kept := rows.filter (keep subject)
  kept.foldl (addRow rows) (kept.foldl (fun nodes r => setNode nodes (rowNode r)) [], [])

/-- The order of `ordered`. -/
def nodeOrder (depth : Hash → Nat) (a b : Node) : Bool :=
  depth a.id < depth b.id ∨ depth a.id = depth b.id ∧ a.id ≤ b.id

def ends (links : List Link) : List (Hash × Hash) := links.map fun l => (l.source, l.target)

/-- The lanes of the nodes, at their depths. -/
def layout (nodes : List Node) (links : List Link) (depth : Hash → Nat) : Graph :=
  let ordered := nodes.mergeSort (nodeOrder depth)
  let placed := Layers.place (fun n => depth n.id) (fun _ => 0) ordered
  { nodes := placed.map fun p => ⟨p.1, depth p.1.id, p.2⟩
    links
    columns := (ordered.map fun n => depth n.id + 1).foldl max 0
    lanes := (placed.map fun p => p.2 + 1).foldl max 0 }

/-- `none` is a loop that has not ended, or a depth that is no number. -/
def dag (rows : List EventReading) (subject : Option Text) : Option (Except DagError Graph) := do
  let (nodes, links) := build rows subject
  let s ← Layers.run (ends links) (nodes.length + 1)
    (Layers.start (nodes.map Node.id) (ends links))
  if s.depth.length ≠ nodes.length then return .error .cycle
  return .ok (layout nodes links fun id => (s.depth.lookup id).getD 0)

/-! ## What the graph should show -/

/-- The row's event is kept. -/
def IsKept (rows : List EventReading) (subject : Option Text) (id : Hash) : Prop :=
  ∃ r ∈ rows.filter (keep subject), r.event = id

/-- The kept rows and a ghost for each parent that is not kept. -/
def Shown (rows : List EventReading) (subject : Option Text) (n : Node) : Prop :=
  (∃ r ∈ rows.filter (keep subject), n = rowNode r) ∨
    ∃ r ∈ rows.filter (keep subject), ∃ p ∈ r.envelope.parents,
      ¬ IsKept rows subject p ∧ n = ghostNode rows p

/-- A parent link to each signed parent, and a pin link to each pinned basis that is a node. -/
def Linked (rows : List EventReading) (subject : Option Text) (l : Link) : Prop :=
  ∃ r ∈ rows.filter (keep subject), l.source = r.event ∧ match l.type with
    | .parent => l.target ∈ r.envelope.parents
    | .pin => l.target ∈ pinBases r.envelope ∧ ∃ n, Shown rows subject n ∧ n.id = l.target

/-- Every link leads to a smaller depth, a depth is the length of the longest chain of links, and
no two nodes share depth and lane. -/
structure Layered (g : Graph) : Prop where
  ids : (g.nodes.map fun p => p.node.id).Nodup
  down : ∀ l ∈ g.links, ∃ a ∈ g.nodes, ∃ b ∈ g.nodes, a.node.id = l.source ∧
    b.node.id = l.target ∧ b.depth < a.depth
  longest : ∀ p ∈ g.nodes, Layers.Deepest (ends g.links) p.depth p.node.id
  lanes : g.nodes.Pairwise fun a b => (a.depth, a.lane) ≠ (b.depth, b.lane)

/-- `dag` returns the graph it should, and the same one for the rows in another order. -/
def Faithful (rows : List EventReading) (subject : Option Text) : Prop :=
  ∃ g, dag rows subject = some (.ok g) ∧ Layered g ∧
    (∀ n, (∃ p ∈ g.nodes, p.node = n) ↔ Shown rows subject n) ∧
    (∀ l, l ∈ g.links ↔ Linked rows subject l) ∧
    ∀ rows', rows'.Perm rows → ∃ g', dag rows' subject = some (.ok g') ∧
      (∀ p, p ∈ g'.nodes ↔ p ∈ g.nodes) ∧ ∀ l, l ∈ g'.links ↔ l ∈ g.links

/-- A pinned basis that is a ghost is a parent of the very row that pins it. -/
def PinsOwn (rows : List EventReading) (subject : Option Text) : Prop :=
  ∀ r ∈ rows.filter (keep subject), ∀ b ∈ pinBases r.envelope,
    IsKept rows subject b ∨ b ∈ r.envelope.parents ∨
      ∀ r' ∈ rows.filter (keep subject), b ∉ r'.envelope.parents

/-- No event names itself through others, as a parent or as a pinned basis: an id is the digest of
what it names. -/
def Acyclic (C : Candidates) : Prop :=
  WellFounded fun b a => ∃ s : Signed, C[a]? = some s ∧
    (b ∈ s.envelope.parents ∨ b ∈ pinBases s.envelope)

/-- `Acyclic` of rows. -/
def AcyclicRows (rows : List EventReading) : Prop :=
  WellFounded fun b a => ∃ r ∈ rows, r.event = a ∧
    (b ∈ r.envelope.parents ∨ b ∈ pinBases r.envelope)

/-! ## Building -/

section
variable {rows kept done : List EventReading} {nodes : List Node} {id p : Hash}

theorem hasNode_iff : hasNode nodes id = true ↔ ∃ n ∈ nodes, n.id = id := by
  rw [hasNode, List.any_eq_true]
  exact exists_congr fun n => and_congr_right fun _ => decide_eq_true_iff

theorem setNode_new {n : Node} (h : ¬ hasNode nodes n.id = true) : setNode nodes n = nodes ++ [n] :=
  if_neg h

@[simp] theorem ghostNode_id : (ghostNode rows p).id = p := by
  unfold ghostNode
  split <;> rfl

/-- The rows have distinct events, so each gets a node of its own. -/
theorem setNodes_eq (h : (kept.map EventReading.event).Nodup) :
    kept.foldl (fun nodes r => setNode nodes (rowNode r)) [] = kept.map rowNode := by
  induction kept using List.reverseRecOn with
  | nil => rfl
  | append_singleton kept r ih =>
    rw [List.map_append, List.nodup_append] at h
    rw [List.foldl_append, ih h.1, List.map_append]
    refine setNode_new fun hhas => ?_
    obtain ⟨n, hn, hid⟩ := hasNode_iff.1 hhas
    obtain ⟨k, hk, rfl⟩ := List.mem_map.1 hn
    exact h.2.2 _ (List.mem_map_of_mem hk) _ List.mem_cons_self hid

theorem addParents_spec {parents : List Hash} {b : List Node × List Link} :
    let b' := parents.foldl (addParent rows id) b
    ((b.1.map Node.id).Nodup → (b'.1.map Node.id).Nodup) ∧
    (∀ n, n ∈ b'.1 ↔ n ∈ b.1 ∨ ∃ p ∈ parents, ¬ hasNode b.1 p = true ∧ n = ghostNode rows p) ∧
    b'.2 = b.2 ++ parents.map fun p => ⟨id, p, .parent⟩ := by
  induction parents generalizing b with
  | nil => simp
  | cons p parents ih =>
    obtain ⟨hnodup, hmem, hlinks⟩ := ih (b := addParent rows id b p)
    have hlinks' : (addParent rows id b p).2 = b.2 ++ [⟨id, p, .parent⟩] := rfl
    rw [hlinks', List.append_assoc, List.singleton_append] at hlinks
    by_cases hhas : hasNode b.1 p = true
    · have hnodes : (addParent rows id b p).1 = b.1 := if_pos hhas
      rw [hnodes] at hnodup hmem
      refine ⟨hnodup, fun n => ?_, hlinks⟩
      rw [List.foldl_cons, hmem, List.exists_mem_cons_iff, or_iff_right (a := _ ∧ _)]
      exact fun h => h.1 hhas
    · have hnodes : (addParent rows id b p).1 = b.1 ++ [ghostNode rows p] := by
        refine (if_neg hhas).trans (setNode_new ?_)
        rwa [ghostNode_id]
      rw [hnodes] at hnodup hmem
      have hhas' : ∀ q, hasNode (b.1 ++ [ghostNode rows p]) q = true ↔
          hasNode b.1 q = true ∨ p = q := by
        intro q
        rw [hasNode, List.any_append, Bool.or_eq_true]
        refine or_congr Iff.rfl ?_
        rw [List.any_cons, List.any_nil, Bool.or_false, decide_eq_true_iff, ghostNode_id]
      refine ⟨fun h => hnodup ?_, fun n => ?_, hlinks⟩
      · rw [List.map_append, List.nodup_append]
        refine ⟨h, List.nodup_singleton _, fun x hx y hy heq => hhas ?_⟩
        obtain ⟨n, hn, rfl⟩ := List.mem_map.1 hx
        rw [List.map_cons, List.map_nil, List.mem_singleton, ghostNode_id] at hy
        exact hasNode_iff.2 ⟨n, hn, heq.trans hy⟩
      · rw [List.foldl_cons, hmem, List.mem_append, List.mem_singleton, or_assoc,
          List.exists_mem_cons_iff]
        refine or_congr_right ?_
        constructor
        · rintro (hn | ⟨q, hq, hnew, hn⟩)
          · exact .inl ⟨hhas, hn⟩
          · exact .inr ⟨q, hq, fun h => hnew ((hhas' q).2 (.inl h)), hn⟩
        · rintro (⟨-, hn⟩ | ⟨q, hq, hnew, hn⟩)
          · exact .inl hn
          · by_cases heq : p = q
            · exact .inl (heq ▸ hn)
            · exact .inr ⟨q, hq, fun h => ((hhas' q).1 h).elim hnew heq, hn⟩

theorem addPins_eq {bases : List Hash} {b : List Node × List Link} :
    bases.foldl (addPin id) b =
      (b.1, b.2 ++ (bases.filter (hasNode b.1)).map fun basis => ⟨id, basis, .pin⟩) := by
  induction bases generalizing b with
  | nil => simp
  | cons basis bases ih =>
    rw [List.foldl_cons, ih, addPin]
    by_cases hhas : hasNode b.1 basis = true
    · rw [if_pos hhas, List.filter_cons_of_pos hhas]
      simp
    · rw [if_neg hhas, List.filter_cons_of_neg hhas]

/-- The nodes after the rows of `done`. -/
def Nodes (rows kept done : List EventReading) (nodes : List Node) : Prop :=
  ∀ n, n ∈ nodes ↔ (∃ r ∈ kept, n = rowNode r) ∨ ∃ r ∈ done, ∃ p ∈ r.envelope.parents,
    (¬ ∃ k ∈ kept, k.event = p) ∧ n = ghostNode rows p

theorem Nodes.has (h : Nodes rows kept done nodes) : hasNode nodes p = true ↔
    (∃ k ∈ kept, k.event = p) ∨ ∃ r ∈ done, p ∈ r.envelope.parents := by
  rw [hasNode_iff]
  constructor
  · rintro ⟨n, hn, rfl⟩
    rcases (h n).1 hn with ⟨r, hr, rfl⟩ | ⟨r, hr, q, hq, -, rfl⟩
    · exact .inl ⟨r, hr, rfl⟩
    · rw [ghostNode_id]
      exact .inr ⟨r, hr, hq⟩
  · rintro (⟨k, hk, rfl⟩ | ⟨r, hr, hp⟩)
    · exact ⟨rowNode k, (h _).2 (.inl ⟨k, hk, rfl⟩), rfl⟩
    · by_cases hkept : ∃ k ∈ kept, k.event = p
      · obtain ⟨k, hk, rfl⟩ := hkept
        exact ⟨rowNode k, (h _).2 (.inl ⟨k, hk, rfl⟩), rfl⟩
      · exact ⟨_, (h _).2 (.inr ⟨r, hr, p, hp, hkept, rfl⟩), ghostNode_id⟩

/-- After the rows of `done`: a pin is there if its basis was a node by then. -/
structure Built (rows kept done : List EventReading) (b : List Node × List Link) : Prop where
  ids : (b.1.map Node.id).Nodup
  nodes : Nodes rows kept done b.1
  links : ∀ l, l ∈ b.2 ↔ ∃ before r, before ++ [r] <+: done ∧ l.source = r.event ∧
    match l.type with
    | .parent => l.target ∈ r.envelope.parents
    | .pin => l.target ∈ pinBases r.envelope ∧ ((∃ k ∈ kept, k.event = l.target) ∨
        ∃ r' ∈ before ++ [r], l.target ∈ r'.envelope.parents)

theorem Built.start (h : (kept.map EventReading.event).Nodup) :
    Built rows kept [] (kept.foldl (fun nodes r => setNode nodes (rowNode r)) [], []) where
  ids := by
    rw [setNodes_eq h, List.map_map]
    exact h
  nodes n := by
    rw [setNodes_eq h, List.mem_map, or_iff_left]
    · exact exists_congr fun r => and_congr_right fun _ => eq_comm
    · rintro ⟨r, hr, -⟩
      exact List.not_mem_nil hr
  links l := by
    refine iff_of_false List.not_mem_nil ?_
    rintro ⟨before, r, hstart, -⟩
    exact List.append_ne_nil_of_right_ne_nil before (List.cons_ne_nil r [])
      (List.prefix_nil.1 hstart)

theorem Built.addRow {b : List Node × List Link} (h : Built rows kept done b) (r : EventReading) :
    Built rows kept (done ++ [r]) (Explorer.addRow rows b r) := by
  obtain ⟨hnodup, hmem, hlinks⟩ := @addParents_spec rows r.event r.envelope.parents b
  set b' := r.envelope.parents.foldl (addParent rows r.event) b
  have hrow : Explorer.addRow rows b r = (b'.1, b'.2 ++
      ((pinBases r.envelope).filter (hasNode b'.1)).map fun basis => ⟨r.event, basis, .pin⟩) :=
    addPins_eq
  have hnodes : Nodes rows kept (done ++ [r]) b'.1 := by
    intro n
    rw [hmem, h.nodes, or_assoc]
    refine or_congr_right ?_
    constructor
    · rintro (⟨x, hx, hn⟩ | ⟨p, hp, hnew, hn⟩)
      · exact ⟨x, List.mem_append_left _ hx, hn⟩
      · rw [h.nodes.has, not_or] at hnew
        exact ⟨r, List.mem_append_right _ List.mem_cons_self, p, hp, hnew.1, hn⟩
    · rintro ⟨x, hx, p, hp, hkept, hn⟩
      rcases List.mem_append.1 hx with hx | hx
      · exact .inl ⟨x, hx, p, hp, hkept, hn⟩
      · obtain rfl := List.mem_singleton.1 hx
        by_cases hold : ∃ y ∈ done, p ∈ y.envelope.parents
        · obtain ⟨y, hy, hp⟩ := hold
          exact .inl ⟨y, hy, p, hp, hkept, hn⟩
        · exact .inr ⟨p, hp, fun hhas => (h.nodes.has.1 hhas).elim hkept hold, hn⟩
  rw [hrow]
  refine ⟨hnodup h.ids, hnodes, fun l => ?_⟩
  rw [hlinks, List.mem_append, List.mem_append, h.links]
  constructor
  · rintro ((⟨before, x, hstart, hl⟩ | hl) | hl)
    · exact ⟨before, x, hstart.trans (List.prefix_append _ _), hl⟩
    · obtain ⟨p, hp, rfl⟩ := List.mem_map.1 hl
      exact ⟨done, r, List.prefix_rfl, rfl, hp⟩
    · obtain ⟨p, hp, rfl⟩ := List.mem_map.1 hl
      obtain ⟨hp, hhas⟩ := List.mem_filter.1 hp
      exact ⟨done, r, List.prefix_rfl, rfl, hp, hnodes.has.1 hhas⟩
  · rintro ⟨before, x, hstart, hsource, hl⟩
    rcases List.prefix_concat_iff.1 hstart with heq | hstart
    · obtain ⟨rfl, rfl⟩ := List.append_singleton_inj.1 heq
      obtain ⟨source, target, type⟩ := l
      obtain rfl : source = _ := hsource
      cases type with
      | parent => exact .inl (.inr (List.mem_map_of_mem hl))
      | pin =>
        obtain ⟨hl, hold⟩ := hl
        exact .inr (List.mem_map_of_mem (List.mem_filter.2 ⟨hl, hnodes.has.2 hold⟩))
    · exact .inl (.inl ⟨before, x, hstart, hsource, hl⟩)

theorem build_spec (subject : Option Text) (h : (rows.map EventReading.event).Nodup) :
    Built rows (rows.filter (keep subject)) (rows.filter (keep subject)) (build rows subject) := by
  have hkept : ((rows.filter (keep subject)).map EventReading.event).Nodup :=
    h.sublist (List.filter_sublist.map _)
  have hfold : ∀ after done b, Built rows (rows.filter (keep subject)) done b →
      Built rows (rows.filter (keep subject)) (done ++ after) (after.foldl (addRow rows) b) := by
    intro after
    induction after with
    | nil =>
      intro done b hb
      rwa [List.append_nil]
    | cons r after ih =>
      intro done b hb
      have hrest := ih (done ++ [r]) _ (hb.addRow r)
      rwa [List.append_assoc] at hrest
  exact hfold _ [] _ (.start hkept)

/-! ## Layers -/

theorem nodeOrder_iff {depth : Hash → Nat} {a b : Node} : nodeOrder depth a b = true ↔
    depth a.id < depth b.id ∨ depth a.id = depth b.id ∧ a.id ≤ b.id := decide_eq_true_iff

theorem nodeOrder_sorted (depth : Hash → Nat) (nodes : List Node) :
    (nodes.mergeSort (nodeOrder depth)).Pairwise fun a b => nodeOrder depth a b = true := by
  refine List.pairwise_mergeSort (fun a b c hab hbc => ?_) (fun a b => ?_) nodes
  · rw [nodeOrder_iff, BitVec.le_def] at *
    omega
  · rw [Bool.or_eq_true, nodeOrder_iff, nodeOrder_iff, BitVec.le_def, BitVec.le_def]
    omega

/-- The layout depends on the set of the nodes and their depths. -/
theorem layout_perm {nodes' : List Node} {links links' : List Link} {depth depth' : Hash → Nat}
    (hnodup : (nodes.map Node.id).Nodup) (hperm : nodes.Perm nodes')
    (hdepth : ∀ n ∈ nodes, depth n.id = depth' n.id) :
    (layout nodes links depth).nodes = (layout nodes' links' depth').nodes := by
  have hmem : ∀ n, n ∈ nodes.mergeSort (nodeOrder depth) ↔ n ∈ nodes := fun n =>
    List.mem_mergeSort
  have hmem' : ∀ n, n ∈ nodes'.mergeSort (nodeOrder depth') ↔ n ∈ nodes := fun n =>
    List.mem_mergeSort.trans hperm.mem_iff.symm
  have hordered : nodes.mergeSort (nodeOrder depth) = nodes'.mergeSort (nodeOrder depth') := by
    have hsorted : (nodes'.mergeSort (nodeOrder depth')).Pairwise
        fun a b => nodeOrder depth a b = true := by
      refine (nodeOrder_sorted depth' nodes').imp_of_mem fun {a b} ha hb h => ?_
      rw [nodeOrder_iff, ← hdepth a ((hmem' a).1 ha), ← hdepth b ((hmem' b).1 hb)] at h
      exact nodeOrder_iff.2 h
    refine List.Perm.eq_of_pairwise (fun a b ha hb hab hba => ?_) (nodeOrder_sorted depth nodes)
      hsorted ?_
    · rw [nodeOrder_iff, BitVec.le_def] at hab hba
      have hid : a.id = b.id := BitVec.eq_of_toNat_eq (by omega)
      exact List.inj_on_of_nodup_map hnodup ((hmem a).1 ha) ((hmem' b).1 hb) hid
    · exact (List.mergeSort_perm _ _).trans (hperm.trans (List.mergeSort_perm _ _).symm)
  have hcolumn : ∀ n ∈ nodes'.mergeSort (nodeOrder depth'), depth n.id = depth' n.id :=
    fun n hn => hdepth n ((hmem' n).1 hn)
  unfold layout
  dsimp only
  rw [hordered, Layers.place_congr hcolumn]
  refine List.map_congr_left fun p hp => ?_
  have hp : p.1 ∈ nodes'.mergeSort (nodeOrder depth') := by
    have hfst := List.mem_map_of_mem (f := Prod.fst) hp
    rwa [Layers.place_fst] at hfst
  rw [hcolumn p.1 hp]

theorem layout_node {links : List Link} {depth : Hash → Nat} {n : Node} :
    (∃ p ∈ (layout nodes links depth).nodes, p.node = n) ↔ n ∈ nodes := by
  have hfst := @Layers.place_fst _ (fun n => depth n.id) (nodes.mergeSort (nodeOrder depth))
    fun _ => 0
  rw [← @List.mem_mergeSort _ (nodeOrder depth) _ nodes, ← hfst, List.mem_map]
  simp only [layout, List.mem_map]
  constructor
  · rintro ⟨p, ⟨q, hq, rfl⟩, rfl⟩
    exact ⟨q, hq, rfl⟩
  · rintro ⟨q, hq, rfl⟩
    exact ⟨_, ⟨q, hq, rfl⟩, rfl⟩

theorem layout_depth {links : List Link} {depth : Hash → Nat} {p : Placed}
    (hp : p ∈ (layout nodes links depth).nodes) : p.depth = depth p.node.id := by
  obtain ⟨q, -, rfl⟩ := List.mem_map.1 hp
  rfl

theorem layout_layered {links : List Link} {depth : Hash → Nat}
    (hnodup : (nodes.map Node.id).Nodup)
    (hends : ∀ l ∈ ends links, l.1 ∈ nodes.map Node.id ∧ l.2 ∈ nodes.map Node.id)
    (hdepth : ∀ id ∈ nodes.map Node.id, Layers.Deepest (ends links) (depth id) id) :
    Layered (layout nodes links depth) where
  ids := by
    have hfst := @Layers.place_fst _ (fun n => depth n.id) (nodes.mergeSort (nodeOrder depth))
      fun _ => 0
    have heq : (layout nodes links depth).nodes.map (fun p => p.node.id) =
        ((nodes.mergeSort (nodeOrder depth)).map Node.id) := by
      rw [← hfst, List.map_map]
      simp only [layout, List.map_map]
      rfl
    rw [heq]
    exact (((List.mergeSort_perm nodes _).map Node.id).nodup_iff).2 hnodup
  down l hl := by
    have hmem : (l.source, l.target) ∈ ends links := List.mem_map_of_mem hl
    obtain ⟨hsource, htarget⟩ := hends _ hmem
    obtain ⟨n, hn, hna⟩ := List.mem_map.1 hsource
    obtain ⟨m, hm, hmb⟩ := List.mem_map.1 htarget
    obtain ⟨a, ha, rfl⟩ := (@layout_node nodes links depth n).2 hn
    obtain ⟨b, hb, rfl⟩ := (@layout_node nodes links depth m).2 hm
    refine ⟨a, ha, b, hb, hna, hmb, ?_⟩
    rw [layout_depth ha, layout_depth hb, hna, hmb]
    exact (hdepth _ hsource).lt (hdepth _ htarget) hmem
  longest p hp := by
    rw [layout_depth hp]
    exact hdepth _ (List.mem_map_of_mem (layout_node.1 ⟨p, hp, rfl⟩))
  lanes := by
    refine List.pairwise_map.2 ?_
    exact @Layers.place_pairwise _ (fun n => depth n.id) (nodes.mergeSort (nodeOrder depth))
      fun _ => 0

/-! ## The graph -/

variable {subject : Option Text}

theorem shown_iff (h : (rows.map EventReading.event).Nodup) {n : Node} :
    n ∈ (build rows subject).1 ↔ Shown rows subject n :=
  (build_spec subject h).nodes n

theorem build_ends (h : (rows.map EventReading.event).Nodup) :
    ∀ l ∈ ends (build rows subject).2, l.1 ∈ (build rows subject).1.map Node.id ∧
      l.2 ∈ (build rows subject).1.map Node.id := by
  have hbuilt := build_spec subject h
  have hnode : ∀ {id}, ((∃ k ∈ rows.filter (keep subject), k.event = id) ∨
      ∃ r ∈ rows.filter (keep subject), id ∈ r.envelope.parents) →
      id ∈ (build rows subject).1.map Node.id := fun hid => by
    obtain ⟨n, hn, heq⟩ := hasNode_iff.1 (hbuilt.nodes.has.2 hid)
    exact List.mem_map.2 ⟨n, hn, heq⟩
  intro e he
  obtain ⟨l, hl, rfl⟩ := List.mem_map.1 he
  obtain ⟨before, r, hstart, hsource, htarget⟩ := (hbuilt.links l).1 hl
  have hr : r ∈ rows.filter (keep subject) :=
    hstart.mem (List.mem_append_right _ List.mem_cons_self)
  refine ⟨hnode (.inl ⟨r, hr, hsource.symm⟩), hnode ?_⟩
  obtain ⟨source, target, type⟩ := l
  cases type with
  | parent => exact .inr ⟨r, hr, htarget⟩
  | pin =>
    refine htarget.2.imp_right fun ⟨r', hr', hp⟩ => ⟨r', hstart.mem hr', hp⟩

theorem build_acyclic (subject : Option Text) (h : (rows.map EventReading.event).Nodup)
    (hacyclic : AcyclicRows rows) :
    WellFounded fun b a => (a, b) ∈ ends (build rows subject).2 := by
  refine Subrelation.wf (fun {b a} hlink => ?_) hacyclic
  obtain ⟨l, hl, heq⟩ := List.mem_map.1 hlink
  obtain ⟨rfl, rfl⟩ := Prod.mk.inj heq
  obtain ⟨before, r, hstart, hsource, htarget⟩ := ((build_spec subject h).links l).1 hl
  have hr := List.mem_filter.1 (hstart.mem (List.mem_append_right _ List.mem_cons_self))
  refine ⟨r, hr.1, hsource.symm, ?_⟩
  obtain ⟨source, target, type⟩ := l
  cases type with
  | parent => exact .inl htarget
  | pin => exact .inr htarget.1

/-- `dag` returns the layout of what it has built at the depths of its links. -/
theorem dag_ok (subject : Option Text) (h : (rows.map EventReading.event).Nodup)
    (hacyclic : AcyclicRows rows) :
    ∃ depth : Hash → Nat, dag rows subject =
        some (.ok (layout (build rows subject).1 (build rows subject).2 depth)) ∧
      ∀ id ∈ (build rows subject).1.map Node.id,
        Layers.Deepest (ends (build rows subject).2) (depth id) id := by
  obtain ⟨t, ht, hlength, hdepth⟩ := Layers.run_spec (build_spec subject h).ids (build_ends h)
    (build_acyclic subject h hacyclic)
  rw [List.length_map] at ht hlength
  refine ⟨fun id => (t.depth.lookup id).getD 0, ?_, fun id hid => ?_⟩
  · unfold dag
    dsimp only
    rw [ht]
    exact if_neg (not_not.2 hlength)
  · obtain ⟨d, hd, hdeepest⟩ := hdepth id hid
    dsimp only
    rw [hd]
    exact hdeepest

theorem shown_perm {rows' : List EventReading} (hperm : rows'.Perm rows) {n : Node} :
    Shown rows' subject n ↔ Shown rows subject n := by
  have hkept : ∀ r, r ∈ rows'.filter (keep subject) ↔ r ∈ rows.filter (keep subject) := fun r =>
    (hperm.filter _).mem_iff
  have hghost : ∀ p, ghostNode rows' p = ghostNode rows p := by
    intro p
    have hserved : (rows'.any fun x => x.event = p) = rows.any fun x => x.event = p := hperm.any_eq
    rw [ghostNode, hserved]
    rfl
  simp only [Shown, IsKept, hkept, hghost]

/-- What holds of every graph. -/
theorem dag_layered (subject : Option Text) (h : (rows.map EventReading.event).Nodup)
    (hacyclic : AcyclicRows rows) :
    ∃ g, dag rows subject = some (.ok g) ∧ Layered g ∧
      (∀ n, (∃ p ∈ g.nodes, p.node = n) ↔ Shown rows subject n) ∧
      g.links = (build rows subject).2 := by
  obtain ⟨depth, hdag, hdepth⟩ := dag_ok subject h hacyclic
  exact ⟨_, hdag, layout_layered (build_spec subject h).ids (build_ends h) hdepth,
    fun n => layout_node.trans (shown_iff h), rfl⟩

/-- The links that are built are links the graph should have; only pins to ghosts can be lost. -/
theorem linked_iff (h : (rows.map EventReading.event).Nodup) (hown : PinsOwn rows subject)
    {l : Link} : l ∈ (build rows subject).2 ↔ Linked rows subject l := by
  have hbuilt := build_spec subject h
  have hnode : ∀ {id}, (∃ n, Shown rows subject n ∧ n.id = id) ↔
      (∃ k ∈ rows.filter (keep subject), k.event = id) ∨
        ∃ r ∈ rows.filter (keep subject), id ∈ r.envelope.parents := by
    intro id
    rw [← hbuilt.nodes.has, hasNode_iff]
    exact exists_congr fun n => and_congr_left fun _ => (shown_iff h).symm
  rw [hbuilt.links]
  obtain ⟨source, target, type⟩ := l
  constructor
  · rintro ⟨before, r, hstart, hsource, htarget⟩
    refine ⟨r, hstart.mem (List.mem_append_right _ List.mem_cons_self), hsource, ?_⟩
    cases type with
    | parent => exact htarget
    | pin =>
      refine ⟨htarget.1, hnode.2 (htarget.2.imp_right fun ⟨r', hr', hp⟩ => ?_)⟩
      exact ⟨r', hstart.mem hr', hp⟩
  · rintro ⟨r, hr, hsource, htarget⟩
    obtain ⟨before, after, hsplit⟩ := List.append_of_mem hr
    have hstart : before ++ [r] <+: rows.filter (keep subject) := by
      rw [hsplit]
      exact ⟨after, by rw [List.append_assoc, List.singleton_append]⟩
    refine ⟨before, r, hstart, hsource, ?_⟩
    cases type with
    | parent => exact htarget
    | pin =>
      obtain ⟨hbasis, hshown⟩ := htarget
      refine ⟨hbasis, ?_⟩
      rcases hown r hr target hbasis with hkept | hparent | hnone
      · exact .inl hkept
      · exact .inr ⟨r, List.mem_append_right _ List.mem_cons_self, hparent⟩
      · exact (hnode.1 hshown).imp_right fun ⟨r', hr', hp⟩ => absurd hp (hnone r' hr')

/-- A row read before the ghost it pins draws no pin to it. -/
theorem pin_lost {r : EventReading} {rest : List EventReading}
    (hrows : rows.filter (keep subject) = r :: rest) (h : (rows.map EventReading.event).Nodup)
    (hkept : ¬ IsKept rows subject p) (hown : p ∉ r.envelope.parents) :
    (⟨r.event, p, .pin⟩ : Link) ∉ (build rows subject).2 := by
  intro hl
  obtain ⟨before, x, hstart, hsource, -, hearly⟩ := ((build_spec subject h).links _).1 hl
  have hdistinct : ((rows.filter (keep subject)).map EventReading.event).Nodup :=
    h.sublist (List.filter_sublist.map _)
  have hx : x ∈ rows.filter (keep subject) :=
    hstart.mem (List.mem_append_right _ List.mem_cons_self)
  have hr : r ∈ rows.filter (keep subject) := hrows ▸ List.mem_cons_self
  obtain rfl : r = x := List.inj_on_of_nodup_map hdistinct hr hx hsource
  obtain rfl : before = [] := by
    rw [hrows] at hstart hdistinct
    cases before with
    | nil => rfl
    | cons y before =>
      obtain ⟨rfl, hstart⟩ := List.cons_prefix_cons.1 hstart
      have hin : _ ∈ rest := hstart.mem (List.mem_append_right _ List.mem_cons_self)
      exact absurd (List.mem_map_of_mem hin) (List.nodup_cons.1 hdistinct).1
  rcases hearly with hk | ⟨x, hx, hp⟩
  · exact hkept hk
  · rw [List.nil_append, List.mem_singleton] at hx
    exact hown (hx ▸ hp)

theorem linked_perm {rows' : List EventReading} (hperm : rows'.Perm rows) {l : Link} :
    Linked rows' subject l ↔ Linked rows subject l := by
  have hkept : ∀ r, r ∈ rows'.filter (keep subject) ↔ r ∈ rows.filter (keep subject) := fun r =>
    (hperm.filter _).mem_iff
  simp only [Linked, hkept, shown_perm hperm]

theorem PinsOwn.perm {rows' : List EventReading} (hown : PinsOwn rows subject)
    (hperm : rows'.Perm rows) : PinsOwn rows' subject := by
  have hkept : ∀ r, r ∈ rows'.filter (keep subject) ↔ r ∈ rows.filter (keep subject) := fun r =>
    (hperm.filter _).mem_iff
  simp only [PinsOwn, IsKept, hkept] at hown ⊢
  exact hown

theorem AcyclicRows.perm {rows' : List EventReading} (hacyclic : AcyclicRows rows)
    (hperm : rows'.Perm rows) : AcyclicRows rows' :=
  Subrelation.wf (fun ⟨r, hr, hlink⟩ => ⟨r, hperm.mem_iff.1 hr, hlink⟩) hacyclic

/-- Where no pin can be lost, the rows in another order give the same nodes, depths and lanes. -/
theorem dag_perm {rows' : List EventReading} (h : (rows.map EventReading.event).Nodup)
    (hacyclic : AcyclicRows rows) (hown : PinsOwn rows subject) (hperm : rows'.Perm rows) :
    ∃ g g', dag rows subject = some (.ok g) ∧ dag rows' subject = some (.ok g') ∧
      g.nodes = g'.nodes ∧ ∀ l, l ∈ g'.links ↔ l ∈ g.links := by
  have h' : (rows'.map EventReading.event).Nodup := (hperm.map _).nodup_iff.2 h
  obtain ⟨depth, hdag, hdepth⟩ := dag_ok subject h hacyclic
  obtain ⟨depth', hdag', hdepth'⟩ := dag_ok subject h' (hacyclic.perm hperm)
  have hlinks : ∀ l, l ∈ (build rows' subject).2 ↔ l ∈ (build rows subject).2 := fun l => by
    rw [linked_iff h' (hown.perm hperm), linked_perm hperm, linked_iff h hown]
  have hends : ∀ e, e ∈ ends (build rows' subject).2 ↔ e ∈ ends (build rows subject).2 := by
    intro e
    simp only [ends, List.mem_map, hlinks]
  have hmem : ∀ n, n ∈ (build rows subject).1 ↔ n ∈ (build rows' subject).1 := fun n => by
    rw [shown_iff h, shown_iff h', shown_perm hperm]
  have hnodes : (build rows subject).1.Perm (build rows' subject).1 :=
    (List.perm_ext_iff_of_nodup (.of_map _ (build_spec subject h).ids)
      (.of_map _ (build_spec subject h').ids)).2 hmem
  refine ⟨_, _, hdag, hdag', layout_perm (build_spec subject h).ids hnodes fun n hn => ?_, hlinks⟩
  have hdeepest := hdepth n.id (List.mem_map_of_mem hn)
  have hdeepest' := hdepth' n.id (List.mem_map_of_mem ((hmem n).1 hn))
  exact hdeepest.unique (hdeepest'.congr hends)

theorem faithful_iff (h : (rows.map EventReading.event).Nodup) (hacyclic : AcyclicRows rows) :
    Faithful rows subject ↔ PinsOwn rows subject := by
  constructor
  · rintro ⟨g, -, -, -, hlinks, horder⟩ r hr b hb
    by_contra hlost
    obtain ⟨hkept, hparent, hghost⟩ : ¬ IsKept rows subject b ∧ b ∉ r.envelope.parents ∧
        ∃ r' ∈ rows.filter (keep subject), b ∈ r'.envelope.parents := by
      simpa only [not_or, not_forall, not_not, exists_prop] using hlost
    obtain ⟨r', hr', hp⟩ := hghost
    -- The row that pins is read first.
    obtain ⟨rest, hperm⟩ : ∃ rest, (r :: rest).Perm rows := by
      obtain ⟨before, after, heq⟩ := List.append_of_mem (List.mem_filter.1 hr).1
      exact ⟨before ++ after, heq ▸ List.perm_middle.symm⟩
    obtain ⟨g', hdag', -, hsame⟩ := horder _ hperm
    have hpin : (⟨r.event, b, .pin⟩ : Link) ∈ g'.links := by
      refine (hsame _).2 ((hlinks _).2 ⟨r, hr, rfl, hb, ghostNode rows b, ?_, ghostNode_id⟩)
      exact .inr ⟨r', hr', b, hp, hkept, rfl⟩
    have h' : ((r :: rest).map EventReading.event).Nodup := (hperm.map _).nodup_iff.2 h
    obtain ⟨depth, hdag, -⟩ := dag_ok subject h' (hacyclic.perm hperm)
    obtain rfl := Except.ok.inj (Option.some.inj (hdag.symm.trans hdag'))
    have hfirst : (r :: rest).filter (keep subject) = r :: rest.filter (keep subject) :=
      List.filter_cons_of_pos (List.mem_filter.1 hr).2
    refine pin_lost hfirst h' (fun ⟨k, hk, heq⟩ => hkept ⟨k, ?_, heq⟩) hparent hpin
    exact (hperm.filter _).mem_iff.1 hk
  · intro hown
    obtain ⟨g, hdag, hlayered, hnodes, hlinks⟩ := dag_layered subject h hacyclic
    refine ⟨g, hdag, hlayered, hnodes, fun l => ?_, fun rows' hperm => ?_⟩
    · rw [hlinks, linked_iff h hown]
    · obtain ⟨g₁, g', hdag₁, hdag', hsame, hlinks'⟩ := dag_perm h hacyclic hown hperm
      obtain rfl := Except.ok.inj (Option.some.inj (hdag₁.symm.trans hdag))
      exact ⟨g', hdag', fun p => by rw [hsame], hlinks'⟩

end

/-! ## Projections -/

section
variable {cr : Crypto} {C : Candidates}

/-- The rows of a projection are the candidates, each once. -/
theorem projected_rows (free : CollisionFree cr C) (acyclic : Acyclic C) :
    ∃ p, V1.project cr C = some p ∧ (p.rows.map EventReading.event).Nodup ∧ AcyclicRows p.rows ∧
      p.rows.map EventReading.event = C.keys ∧
      ∀ r ∈ p.rows, ∃ s, C[r.event]? = some s ∧ r.envelope = s.envelope := by
  obtain ⟨out, s, A, p, -, -, -, -, hproject, projected⟩ := V1.project_spec free
  have hrows : ∀ r ∈ p.rows, ∃ s, C[r.event]? = some s ∧ r.envelope = s.envelope := by
    intro r hr
    obtain ⟨t, st, ht, -, henvelope, -⟩ := (projected.rows r hr).known
    exact ⟨t, ht, henvelope⟩
  refine ⟨p, hproject, ?_, Subrelation.wf (fun {b a} ⟨r, hr, hid, hlink⟩ => ?_) acyclic,
    projected.events, hrows⟩
  · rw [projected.events]
    exact Std.ExtTreeMap.nodup_keys
  · obtain ⟨s, hs, henvelope⟩ := hrows r hr
    exact ⟨s, hid ▸ hs, henvelope ▸ hlink⟩

/-- Every snapshot has a graph, with the nodes it should have and in layers. The graph has the
links it should have, for the rows in any order, if and only if every ghost that a row pins is a
parent of that row. -/
theorem graph_faithful_iff (free : CollisionFree cr C) (acyclic : Acyclic C)
    (subject : Option Text) : ∃ p, V1.project cr C = some p ∧
      (∃ g, dag p.rows subject = some (.ok g) ∧ Layered g ∧
        ∀ n, (∃ q ∈ g.nodes, q.node = n) ↔ Shown p.rows subject n) ∧
      (Faithful p.rows subject ↔ PinsOwn p.rows subject) := by
  obtain ⟨p, hproject, hdistinct, hacyclic, -⟩ := projected_rows free acyclic
  obtain ⟨g, hdag, hlayered, hnodes, -⟩ := dag_layered subject hdistinct hacyclic
  exact ⟨p, hproject, ⟨g, hdag, hlayered, hnodes⟩, faithful_iff hdistinct hacyclic⟩

end

/-! ## A pin to a ghost -/

namespace Causes

/-- `farCrypto`, and the revision of the event `11` of the subject `1`. -/
def crypto : Crypto where
  sha256 bytes :=
    if bytes.length = 82 ∧ (bytes.getD 49 0).toNat = 1 ∧ (bytes.getLastD 0).toNat = 11 then
      0xd38ec0775bf90064d2586bf5716a024247edddad6f12ac52f001ccc13d6c5595
    else V1.Sample.farCrypto.sha256 bytes
  authorKey := V1.Sample.crypto.authorKey

def edge : Signed :=
  ⟨V1.Sample.edgeAssert V1.Sample.carol "influence" V1.Sample.ends, by decide⟩

def correction : Signed :=
  ⟨V1.Sample.correction V1.Sample.alice (V1.rootGrant V1.Sample.crypto 1) 1 7 8, by decide⟩

/-- An edge with a pin at `1`, and a correction whose parent is `1`. -/
def lost : Candidates := .ofList [((10 : Hash), edge), ((11 : Hash), correction)]

theorem lost_iff {a : Hash} {s : Signed} :
    lost[a]? = some s ↔ a = 10 ∧ s = edge ∨ a = 11 ∧ s = correction := by
  rw [lost, Maps.getElem?_ofList (by decide), List.mem_cons, List.mem_singleton, Prod.mk.injEq,
    Prod.mk.injEq]

theorem lost_free : CollisionFree crypto lost := by decide +kernel

theorem lost_acyclic : Acyclic lost := by
  have hedge : edge.envelope.parents ++ pinBases edge.envelope = [1, 9] := rfl
  have hcorrection : correction.envelope.parents ++ pinBases correction.envelope = [1] := rfl
  refine Subrelation.wf (fun {b a} ⟨s, hs, hb⟩ => ?_) (measure BitVec.toNat).wf
  change b.toNat < a.toNat
  have hb : b ∈ s.envelope.parents ++ pinBases s.envelope := List.mem_append.2 hb
  rcases lost_iff.1 hs with ⟨rfl, rfl⟩ | ⟨rfl, rfl⟩
  · rw [hedge, List.mem_pair] at hb
    rcases hb with rfl | rfl <;> decide
  · rw [hcorrection, List.mem_singleton] at hb
    subst hb
    decide

end Causes

open Causes

theorem graph_faithful_iff_lost : ∃ p, V1.project crypto lost = some p ∧
    (∃ g, dag p.rows none = some (.ok g) ∧ Layered g ∧
      ∀ n, (∃ q ∈ g.nodes, q.node = n) ↔ Shown p.rows none n) ∧
    (Faithful p.rows none ↔ PinsOwn p.rows none) :=
  graph_faithful_iff lost_free lost_acyclic none

/-- The edge is read first: its basis becomes a ghost later, and no pin leads there. -/
theorem pin_to_ghost_lost : ∃ p g, V1.project crypto lost = some p ∧
    dag p.rows none = some (.ok g) ∧
    (∃ r ∈ p.rows, r.event = 10 ∧ (1 : Hash) ∈ pinBases r.envelope) ∧
    (∃ q ∈ g.nodes, q.node.id = 1) ∧ (⟨10, 1, .pin⟩ : Link) ∉ g.links ∧ ¬ Faithful p.rows none := by
  obtain ⟨p, hproject, hdistinct, hacyclic, hevents, hrows⟩ :=
    projected_rows lost_free lost_acyclic
  have hkeys : lost.keys = [10, 11] := by decide
  obtain ⟨r, rest, heq, hr, hrest⟩ := List.map_eq_cons_iff.1 (hevents.trans hkeys)
  obtain ⟨r', rest', rfl, hr', hnil⟩ := List.map_eq_cons_iff.1 hrest
  obtain rfl := List.map_eq_nil_iff.1 hnil
  have hmem : r ∈ p.rows ∧ r' ∈ p.rows := by simp [heq]
  have hfilter : p.rows.filter (keep none) = p.rows := List.filter_eq_self.2 fun _ _ => rfl
  have hedge : r.envelope = edge.envelope := by
    obtain ⟨s, hs, hr₁⟩ := hrows r hmem.1
    rw [hr] at hs
    rw [hr₁]
    rcases lost_iff.1 hs with ⟨-, rfl⟩ | ⟨h, -⟩
    · rfl
    · exact absurd h (by decide)
  have hcorrection : r'.envelope = correction.envelope := by
    obtain ⟨s, hs, hr₁⟩ := hrows r' hmem.2
    rw [hr'] at hs
    rw [hr₁]
    rcases lost_iff.1 hs with ⟨h, -⟩ | ⟨-, rfl⟩
    · exact absurd h (by decide)
    · rfl
  have hpin : (1 : Hash) ∈ pinBases r.envelope := by
    rw [hedge]
    decide
  have hparent : (1 : Hash) ∉ r.envelope.parents := by
    rw [hedge]
    decide
  have hghost : (1 : Hash) ∈ r'.envelope.parents := by
    rw [hcorrection]
    decide
  have hkept : ¬ IsKept p.rows none 1 := by
    rintro ⟨k, hk, hid⟩
    rw [hfilter, heq, List.mem_pair] at hk
    rcases hk with rfl | rfl
    · exact absurd (hr.symm.trans hid) (by decide)
    · exact absurd (hr'.symm.trans hid) (by decide)
  obtain ⟨g, hdag, -, hshown, hlinks⟩ := dag_layered none hdistinct hacyclic
  obtain ⟨q, hq, hnode⟩ := (hshown (ghostNode p.rows 1)).2
    (.inr ⟨r', hfilter.symm ▸ hmem.2, 1, hghost, hkept, rfl⟩)
  have hlost : (⟨10, 1, .pin⟩ : Link) ∉ g.links := by
    rw [hlinks, ← hr]
    exact pin_lost (hfilter.trans heq) hdistinct hkept hparent
  refine ⟨p, g, hproject, hdag, ⟨r, hmem.1, hr, hpin⟩, ⟨q, hq, ?_⟩, hlost, fun hfaithful => ?_⟩
  · rw [hnode, ghostNode_id]
  · rcases (faithful_iff hdistinct hacyclic).1 hfaithful r (hfilter.symm ▸ hmem.1) 1 hpin with
      h | h | h
    · exact hkept h
    · exact hparent h
    · exact h r' (hfilter.symm ▸ hmem.2) hghost

end Clockchain.Explorer
