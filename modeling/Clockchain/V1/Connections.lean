import Clockchain.V1.Rows

/-!
# What the support graph holds

The neighbors of a subject are the other ends of its current edges that are trusted
throughout and no dispute; an end of such an edge is resolved.
-/

namespace Clockchain.V1
open Relation Maps Programs
set_option autoImplicit false

theorem Neighbor.cmp_eq {a b : Neighbor} (h : Neighbor.cmp a b = .eq) : a = b := by
  simp only [Neighbor.cmp, compareLex, compareOn, Ordering.then_eq_eq,
    Std.LawfulEqCmp.compare_eq_iff_eq] at h
  obtain ⟨hsubject, hedge, hrelation⟩ := h
  cases a
  cases b
  simp_all

instance : Std.LawfulEqCmp Neighbor.cmp where
  eq_of_compare := Neighbor.cmp_eq

/-- The creator of the subject is a curator. -/
def Trusted (p : Projection) (curators : BTreeSet) (subject : Hash) : Prop :=
  ∃ row ∈ p.rows, row.event = subject ∧ row.envelope.author ∈ curators

def Resolved (p : Projection) (subject : Hash) : Prop :=
  ∃ reading ∈ p.subjects, reading.subject = subject ∧ reading.state = .resolved

namespace EdgeReading

/-- The edge supports: it is current, no dispute, and authored by a curator. -/
structure Supports (curators : BTreeSet) (r : EdgeReading) : Prop where
  current : r.status = .current
  agrees : r.relation ≠ "disputes"
  curated : r.author ∈ curators

/-- The edge lies between `x` and `y`, in either direction. -/
def Joins (r : EdgeReading) (x y : Hash) : Prop :=
  ∃ pins, r.pins[0]? = some pins ∧ (pins.source.subject = x ∧ pins.target.subject = y ∨
    pins.source.subject = y ∧ pins.target.subject = x)

theorem Joins.symm {r : EdgeReading} {x y : Hash} (h : r.Joins x y) : r.Joins y x := by
  obtain ⟨pins, hpins, hends⟩ := h
  exact ⟨pins, hpins, hends.symm⟩

theorem Joins.other {r : EdgeReading} {x y z w : Hash} (h : r.Joins x y) (h' : r.Joins z w) :
    x = z ∧ y = w ∨ x = w ∧ y = z := by
  obtain ⟨pins, hpins, hends⟩ := h
  obtain ⟨pins', hpins', hends'⟩ := h'
  obtain rfl := Option.some.inj (hpins.symm.trans hpins')
  rcases hends with ⟨rfl, rfl⟩ | ⟨rfl, rfl⟩ <;> rcases hends' with ⟨rfl, rfl⟩ | ⟨rfl, rfl⟩ <;> simp

end EdgeReading

/-- `n` is a neighbor of `x` through one of the listed edges. -/
def Adjacent (p : Projection) (curators : BTreeSet) (edges : List EdgeReading) (x : Hash)
    (n : Neighbor) : Prop :=
  ∃ r ∈ edges, r.Supports curators ∧ r.edge = n.edge ∧ r.relation = n.relation ∧
    r.Joins x n.subject ∧ Trusted p curators x ∧ Trusted p curators n.subject

/-! ## Lookups in a projection -/

namespace Projected
variable {cr : Crypto} {C : Candidates} {out : BTreeMap Status} {A : Authority} {p : Projection}
variable (projected : Projected cr C out A p)
include projected

theorem rows_nodup : (p.rows.map EventReading.event).Nodup := by
  rw [projected.events]
  exact Std.ExtTreeMap.nodup_keys

theorem subjects_nodup : (p.subjects.map SubjectReading.subject).Nodup := by
  rw [projected.named]
  exact genesesOf_nodup _

theorem edges_nodup : (p.edges.map EdgeReading.edge).Nodup := by
  rw [projected.asserts]
  exact (nodup_fst_toList C).sublist (List.filter_sublist.map Prod.fst)

theorem row_exists {e : Hash} (he : e ∈ C) : ∃ row ∈ p.rows, row.event = e :=
  List.mem_map.mp (projected.events ▸ Std.ExtTreeMap.mem_keys.mpr he)

/-- A subject that a pin follows is resolved. -/
theorem pinned_resolved (branch : Branch cr C (validOf C out)) {pin : Pin} {head : Hash}
    (current : pin.Current cr (validOf C out) A head) : Resolved p pin.subject := by
  have hhead : head ∈ (history cr (validOf C out)).Frontier A.revokes
      (actsOf (validOf C out) pin.subject) := by
    rw [current.single]
    rfl
  obtain ⟨⟨t, ht, hsubject⟩, _⟩ := hhead
  obtain ⟨g, hg, hkind, _⟩ := branch.genesis_exists ht
  rw [hsubject] at hg
  obtain ⟨reading, hreading, hname⟩ : ∃ reading ∈ p.subjects, reading.subject = pin.subject :=
    List.mem_map.mp (projected.named ▸ genesesOf_mem.mpr ⟨g, hg, hkind⟩)
  refine ⟨reading, hreading, hname, ?_⟩
  rw [(projected.subjects reading hreading).state, hname, current.single, subjectStateOf,
    if_neg (Set.singleton_ne_empty head), if_neg (by simp)]

/-- Both ends of a current edge are resolved. -/
theorem joined_resolved (branch : Branch cr C (validOf C out)) {r : EdgeReading} (hr : r ∈ p.edges)
    (hcurrent : r.status = .current) {x y : Hash} (h : r.Joins x y) : Resolved p x := by
  obtain ⟨pins, hpins, ⟨source, hsource⟩, target, htarget⟩ :=
    (projected.edges r hr).current hcurrent
  obtain ⟨pins', hfirst, hends⟩ := h
  simp only [hpins, List.getElem?_cons_zero, Option.some.injEq] at hfirst
  subst hfirst
  rcases hends with ⟨rfl, _⟩ | ⟨_, rfl⟩
  · exact projected.pinned_resolved branch hsource
  · exact projected.pinned_resolved branch htarget

end Projected

/-! ## Building the graph -/

/-- The authors of all rows. -/
def authorsOf (p : Projection) : BTreeMap Hash :=
  .ofList (p.rows.map fun r => (r.event, r.envelope.author))

theorem addNeighbor_mem {neighbors : Neighbors} {a x : Hash} {m n : Neighbor} :
    m ∈ (addNeighbor neighbors a n)[x]?.getD ∅ ↔ m ∈ neighbors[x]?.getD ∅ ∨ x = a ∧ m = n := by
  rw [addNeighbor, getElem?_insert]
  by_cases h : a = x
  · subst h
    simp only [if_true, Option.getD_some, mem_insert, true_and, or_comm]
  · simp [h, Ne.symm h]

theorem statusReasons_nil {r : EdgeReading} : statusReasons r = [] ↔ r.status = .current := by
  unfold statusReasons
  split_ifs with h
  · simpa using h
  · simpa using h

section
variable {cr : Crypto} {C : Candidates} {out : BTreeMap Status} {A : Authority} {p : Projection}
variable (projected : Projected cr C out A p) (curators : BTreeSet)
include projected

theorem authorsOf_spec {e : Hash} (he : e ∈ C) : ∃ author, (authorsOf p)[e]? = some author ∧
    (curators.contains author = true ↔ Trusted p curators e) := by
  obtain ⟨row, hrow, rfl⟩ := projected.row_exists he
  have hnodup : ((p.rows.map fun r => (r.event, r.envelope.author)).map Prod.fst).Nodup := by
    rw [List.map_map]
    exact projected.rows_nodup
  refine ⟨row.envelope.author, ?_, ?_⟩
  · rw [authorsOf, getElem?_ofList hnodup]
    exact List.mem_map.mpr ⟨row, hrow, rfl⟩
  · rw [Std.ExtTreeSet.contains_iff_mem]
    constructor
    · exact fun h => ⟨row, hrow, rfl, h⟩
    · rintro ⟨row', hrow', hevent, h⟩
      rwa [← List.inj_on_of_nodup_map projected.rows_nodup hrow' hrow hevent]

theorem untrusted_spec (side : Side) {subject : Hash} (h : subject ∈ C) :
    ∃ reasons, untrusted (authorsOf p) curators side subject = some reasons ∧
      (reasons = [] ↔ Trusted p curators subject) := by
  obtain ⟨author, hget, htrusted⟩ := authorsOf_spec projected curators h
  simp only [untrusted, hget, Option.bind_eq_bind, Option.bind_some]
  rw [← htrusted]
  cases curators.contains author
  · exact ⟨_, rfl, by simp⟩
  · exact ⟨_, rfl, by simp⟩

theorem supportEdge_spec {done : List EdgeReading} {neighbors : Neighbors}
    {excluded : List Exclusion}
    (inv : ∀ x n, n ∈ neighbors[x]?.getD ∅ ↔ Adjacent p curators done x n) {r : EdgeReading}
    (hr : r ∈ p.edges) : ∃ neighbors' excluded',
      supportEdge (authorsOf p) curators (neighbors, excluded) r = some (neighbors', excluded') ∧
      ∀ x n, n ∈ neighbors'[x]?.getD ∅ ↔ Adjacent p curators (done ++ [r]) x n := by
  obtain ⟨pins, rest, hpins, hsource, htarget⟩ := (projected.edges r hr).ends
  obtain ⟨source, hs, hsnil⟩ := untrusted_spec projected curators .source hsource
  obtain ⟨target, ht, htnil⟩ := untrusted_spec projected curators .target htarget
  have hfirst : r.pins[0]? = some pins := by simp [hpins]
  simp only [supportEdge, hfirst, hs, ht, Option.bind_eq_bind, Option.bind_some]
  have hreasons : (statusReasons r ++
      (if r.relation = "disputes" then [ExclusionReason.disputesNotSupport] else []) ++
      (if curators.contains r.author then [] else [ExclusionReason.untrustedEdgeAuthor]) ++
      source ++ target).isEmpty = true ↔ r.Supports curators ∧
        Trusted p curators pins.source.subject ∧ Trusted p curators pins.target.subject := by
    rw [List.isEmpty_iff]
    simp only [List.append_eq_nil_iff, statusReasons_nil, hsnil, htnil, ite_eq_right_iff,
      ite_eq_left_iff, List.cons_ne_nil, imp_false, Std.ExtTreeSet.contains_iff_mem]
    constructor
    · rintro ⟨⟨⟨⟨h1, h2⟩, h3⟩, h4⟩, h5⟩
      exact ⟨⟨h1, h2, not_not.mp h3⟩, h4, h5⟩
    · rintro ⟨⟨h1, h2, h3⟩, h4, h5⟩
      exact ⟨⟨⟨⟨h1, h2⟩, not_not.mpr h3⟩, h4⟩, h5⟩
  generalize statusReasons r ++ _ ++ _ ++ source ++ target = reasons at hreasons ⊢
  by_cases h : reasons.isEmpty = true
  · rw [if_pos h]
    obtain ⟨supports, htsource, httarget⟩ := hreasons.mp h
    refine ⟨_, _, rfl, fun x n => ?_⟩
    rw [addNeighbor_mem, addNeighbor_mem, inv, or_assoc]
    constructor
    · rintro (⟨q, hq, hadj⟩ | ⟨rfl, rfl⟩ | ⟨rfl, rfl⟩)
      · exact ⟨q, List.mem_append_left _ hq, hadj⟩
      · exact ⟨r, by simp, supports, rfl, rfl, ⟨pins, hfirst, Or.inl ⟨rfl, rfl⟩⟩, htsource,
          httarget⟩
      · exact ⟨r, by simp, supports, rfl, rfl, ⟨pins, hfirst, Or.inr ⟨rfl, rfl⟩⟩, httarget,
          htsource⟩
    · rintro ⟨q, hq, hadj⟩
      rcases List.mem_append.mp hq with hq | hq
      · exact Or.inl ⟨q, hq, hadj⟩
      · obtain rfl := List.mem_singleton.mp hq
        obtain ⟨_, hedge, hrelation, ⟨pins', hpins', hends⟩, _⟩ := hadj
        obtain rfl := Option.some.inj (hfirst.symm.trans hpins')
        obtain ⟨subject, edge, relation⟩ := n
        obtain rfl : q.edge = edge := hedge
        obtain rfl : q.relation = relation := hrelation
        rcases hends with ⟨rfl, rfl⟩ | ⟨rfl, rfl⟩
        · exact Or.inr (Or.inl ⟨rfl, rfl⟩)
        · exact Or.inr (Or.inr ⟨rfl, rfl⟩)
  · rw [if_neg h]
    refine ⟨_, _, rfl, fun x n => ?_⟩
    rw [inv]
    constructor
    · rintro ⟨q, hq, hadj⟩
      exact ⟨q, List.mem_append_left _ hq, hadj⟩
    · rintro ⟨q, hq, hadj⟩
      refine ⟨q, (List.mem_append.mp hq).resolve_right fun hsingle => ?_, hadj⟩
      obtain rfl := List.mem_singleton.mp hsingle
      obtain ⟨supports, _, _, ⟨pins', hpins', hends⟩, hx, hy⟩ := hadj
      obtain rfl := Option.some.inj (hfirst.symm.trans hpins')
      refine h (hreasons.mpr ⟨supports, ?_⟩)
      rcases hends with ⟨rfl, htarget⟩ | ⟨hsource, rfl⟩
      · exact ⟨hx, htarget ▸ hy⟩
      · exact ⟨hsource ▸ hy, hx⟩

/-- What a support graph holds, with the subjects of `hidden` taken out. -/
structure SupportGraph.Holds (p : Projection) (curators : BTreeSet) (hidden : Hash → Prop)
    (g : SupportGraph) : Prop where
  neighbors : ∀ x n, n ∈ g.neighbors[x]?.getD ∅ ↔ Adjacent p curators p.edges x n ∧ ¬ hidden x ∧
    ¬ hidden n.subject
  subjects : ∀ x, g.subjects[x]? = some (.subject .resolved) ↔
    Resolved p x ∧ Trusted p curators x ∧ ¬ hidden x

theorem supportState_spec (branch : Branch cr C (validOf C out)) {r : SubjectReading}
    (hr : r ∈ p.subjects) : ∃ y, supportState (authorsOf p) curators r = some y ∧
      y.1 = r.subject ∧ ∃ q ∈ p.subjects, q.subject = y.1 ∧
        (y.2 = .subject .resolved ↔ q.state = .resolved ∧ Trusted p curators y.1) := by
  obtain ⟨t, ht, _⟩ := genesesOf_mem.mp
    (projected.named ▸ List.mem_map_of_mem (f := SubjectReading.subject) hr)
  obtain ⟨author, hget, htrusted⟩ :=
    authorsOf_spec projected curators (branch.within.mem (mem_of_getElem? ht))
  simp only [supportState, hget, Option.bind_eq_bind, Option.bind_some]
  split_ifs with h
  · exact ⟨_, rfl, rfl, r, hr, rfl, by simp [htrusted.mp h]⟩
  · exact ⟨_, rfl, rfl, r, hr, rfl, by simp [mt htrusted.mpr h]⟩

/-- `support_graph` returns on every projection, and it holds what supports. -/
theorem supportGraph_spec (branch : Branch cr C (validOf C out)) :
    ∃ g, supportGraph p curators = some g ∧ g.Holds p curators fun _ => False := by
  obtain ⟨subjects, hsubjects, hnames, hstates⟩ := mapM_named fun r hr =>
    supportState_spec projected curators branch hr
  obtain ⟨⟨neighbors, excluded⟩, hedges, inv⟩ : ∃ state : Neighbors × List Exclusion,
      p.edges.foldlM (supportEdge (authorsOf p) curators) (∅, []) = some state ∧
        ∀ x n, n ∈ state.1[x]?.getD ∅ ↔ Adjacent p curators p.edges x n := by
    refine foldlM_spec (fun before (state : Neighbors × List Exclusion) =>
      ∀ x n, n ∈ state.1[x]?.getD ∅ ↔ Adjacent p curators before x n) ?_ ?_
    · simp [Adjacent]
    · rintro before r after ⟨neighbors, excluded⟩ heq inv
      obtain ⟨neighbors', excluded', hrun, inv'⟩ :=
        supportEdge_spec projected curators inv (show r ∈ p.edges by simp [heq])
      exact ⟨(neighbors', excluded'), hrun, inv'⟩
  have hauthors : (Std.ExtTreeMap.ofList (p.rows.map fun r => (r.event, r.envelope.author))
      compare : BTreeMap Hash) = authorsOf p := rfl
  refine ⟨_, by simp only [supportGraph, hauthors, hsubjects, hedges, Option.bind_eq_bind,
    Option.bind_some]; rfl, fun x n => by simp [inv], fun x => ?_⟩
  have hnodup : (subjects.map Prod.fst).Nodup := by
    rw [hnames]
    exact projected.subjects_nodup
  rw [getElem?_ofList hnodup]
  constructor
  · intro hmem
    obtain ⟨q, hq, hname, hiff⟩ := hstates _ hmem
    obtain ⟨hstate, htrusted⟩ := hiff.mp rfl
    exact ⟨⟨q, hq, hname, hstate⟩, htrusted, id⟩
  · rintro ⟨⟨r, hr, rfl, hstate⟩, htrusted, _⟩
    obtain ⟨⟨x, st⟩, hmem, hx⟩ :=
      List.mem_map.mp (hnames ▸ List.mem_map_of_mem (f := SubjectReading.subject) hr)
    obtain rfl : x = r.subject := hx
    obtain ⟨q, hq, hname, hiff⟩ := hstates _ hmem
    obtain rfl := List.inj_on_of_nodup_map projected.subjects_nodup hq hr hname
    obtain rfl := hiff.mpr ⟨hstate, htrusted⟩
    exact hmem

end

end Clockchain.V1
