import Clockchain.V1.Connections
import Clockchain.V1.Pinning

/-!
# Support verdicts

A verdict is supported exactly when its two subjects are open to each other: resolved,
trusted and visible, with a short enough path of supporting edges through such subjects.
-/

namespace Clockchain.V1
open Maps Programs
set_option autoImplicit false

/-- The revision that the head of the subject selects was asserted at or before `asOf`. -/
def VisibleAt (p : Projection) (asOf : Option Hash) (subject : Hash) : Prop :=
  ∀ q, asOf = some q → ∃ reading ∈ p.subjects, reading.subject = subject ∧
    ∃ head ∈ reading.frontier, ∃ row ∈ p.rows, row.event = head ∧
      ∃ rev ∈ p.revisions, row.revision = some rev.id ∧
        ∃ t, rev.assertedTime = some t ∧ t.coordinate ≤ q

theorem VisibleAt.later {p : Projection} {q : Hash} {asOf : Option Hash} {subject : Hash}
    (h : VisibleAt p (some q) subject) (hle : ∀ q', asOf = some q' → q ≤ q') :
    VisibleAt p asOf subject := by
  intro q' hq'
  obtain ⟨reading, hreading, hname, head, hhead, row, hrow, hevent, rev, hrev, hid, t, ht,
    hcoord⟩ := h q rfl
  exact ⟨reading, hreading, hname, head, hhead, row, hrow, hevent, rev, hrev, hid, t, ht,
    BitVec.le_trans hcoord (hle q' hq')⟩

/-- Resolved, trusted and visible. -/
structure Open (p : Projection) (curators : BTreeSet) (asOf : Option Hash) (subject : Hash) :
    Prop where
  resolved : Resolved p subject
  trusted : Trusted p curators subject
  visible : VisibleAt p asOf subject

/-- A supporting edge between two open subjects. -/
def Hop (p : Projection) (curators : BTreeSet) (asOf : Option Hash) (x edge y : Hash) : Prop :=
  ∃ r ∈ p.edges, r.Supports curators ∧ r.edge = edge ∧ r.Joins x y ∧ Open p curators asOf x ∧
    Open p curators asOf y

theorem Hop.symm {p : Projection} {curators : BTreeSet} {asOf : Option Hash} {x edge y : Hash}
    (h : Hop p curators asOf x edge y) : Hop p curators asOf y edge x := by
  obtain ⟨r, hr, supports, hedge, joins, hx, hy⟩ := h
  exact ⟨r, hr, supports, hedge, joins.symm, hy, hx⟩

/-- Two open subjects with a path of at most `maxHops` supporting edges between them. -/
structure Connected (p : Projection) (curators : BTreeSet) (asOf : Option Hash) (maxHops : Nat)
    (source target : Hash) : Prop where
  start : Open p curators asOf source
  finish : Open p curators asOf target
  path : ∃ path, Search.Walk (Hop p curators asOf) source path target ∧ path.length ≤ maxHops

def Support.IsSupported : Support → Prop
  | .supported .. => True
  | .unsupported _ => False

/-! ## Visibility -/

section
variable {cr : Crypto} {C : Candidates} {out : BTreeMap Status} {A : Authority} {p : Projection}
variable (projected : Projected cr C out A p) (branch : Branch cr C (validOf C out))
include projected branch

theorem Projected.revisions_nodup : (p.revisions.map Revision.id).Nodup := by
  have hids :
      p.revisions.map Revision.id = (V1.revisions cr (validOf C out)).toList.map Prod.fst := by
    rw [projected.revisions, List.map_map]
    refine List.map_congr_left ?_
    rintro ⟨r, rev⟩ hmem
    obtain ⟨_, _, _, _, hid⟩ := (revisions_get branch.free_within).mp
      (Std.ExtTreeMap.mem_toList_iff_getElem?_eq_some.mp hmem)
    exact hid
  rw [hids]
  exact nodup_fst_toList _

theorem visibility_spec (asOf : Option Hash) {subject : Hash} (h : Resolved p subject) :
    ∃ v, visibility p subject asOf = some v ∧ (v.1 = .visible ↔ VisibleAt p asOf subject) := by
  obtain ⟨reading, hreading, rfl, hstate⟩ := h
  have reads := projected.subjects reading hreading
  obtain ⟨head, heads, hcons, hsingle⟩ := single_head reads.frontier (reads.state.symm.trans hstate)
  have hhead : head ∈ reading.frontier := Std.ExtTreeSet.mem_toList.mp (by simp [hcons])
  obtain ⟨⟨t, ht, _⟩, _⟩ := (reads.frontier head).mp hhead
  obtain ⟨row, hrow, hevent⟩ := projected.row_exists (branch.within.mem (mem_of_getElem? ht))
  have hfind := find?_named projected.subjects_nodup hreading
  have hfindRow := find?_named projected.rows_nodup hrow
  rw [hevent] at hfindRow
  simp only [visibility, hfind, hstate, hcons, List.head?_cons, hfindRow, ne_eq, not_true_eq_false,
    if_false, Option.bind_eq_bind, Option.bind_some]
  refine ⟨_, rfl, ?_⟩
  -- The revision on record is the one that the head's row names.
  have hshown : ∀ rev ∈ p.revisions, row.revision = some rev.id →
      (p.revisions.find? fun r => some r.id = row.revision) = some rev := by
    intro rev hrev hid
    simpa [hid] using find?_named (projected.revisions_nodup branch) hrev
  have hiff : ∀ q, asOf = some q → (VisibleAt p asOf reading.subject ↔ ∃ rev t,
      (p.revisions.find? fun r => some r.id = row.revision) = some rev ∧
        rev.assertedTime = some t ∧ t.coordinate ≤ q) := by
    rintro q rfl
    constructor
    · intro hvisible
      obtain ⟨reading', hreading', hname, head', hhead', row', hrow', hevent', rev, hrev,
        hid, t, ht, hcoord⟩ := hvisible q rfl
      obtain rfl := List.inj_on_of_nodup_map projected.subjects_nodup hreading' hreading hname
      have hhead'' : head' = head := by
        have := (reads.frontier head').mp hhead'
        rwa [hsingle] at this
      obtain rfl := List.inj_on_of_nodup_map projected.rows_nodup hrow' hrow
        (by rw [hevent', hhead'', hevent])
      exact ⟨rev, t, hshown rev hrev hid, ht, hcoord⟩
    · rintro ⟨rev, t, hfound, ht, hcoord⟩ q' hq'
      obtain rfl := Option.some.inj hq'
      have hid : some rev.id = row.revision := by simpa using List.find?_some hfound
      exact ⟨reading, hreading, rfl, head, hhead, row, hrow, hevent, rev,
        List.mem_of_find?_eq_some hfound, hid.symm, t, ht, hcoord⟩
  cases asOf with
  | none => exact iff_of_true rfl fun q hq => by simp at hq
  | some q =>
    rw [hiff q rfl]
    cases hfound : p.revisions.find? fun r => some r.id = row.revision with
    | none => simp
    | some rev =>
      cases htime : rev.assertedTime with
      | none => simp [htime]
      | some t =>
        have hmatch : (∃ rev' t', some rev = some rev' ∧ rev'.assertedTime = some t' ∧
            t'.coordinate ≤ q) ↔ t.coordinate ≤ q := by
          simp [htime]
        rw [hmatch, Option.bind_some, htime]
        by_cases hlt : q < t.coordinate
        · simp [hlt, BitVec.not_le.mpr hlt]
        · simp [hlt, BitVec.not_lt.mp hlt]

end

/-! ## Hiding subjects -/

section
variable {cr : Crypto} {C : Candidates} {out : BTreeMap Status} {A : Authority} {p : Projection}
variable (projected : Projected cr C out A p) (branch : Branch cr C (validOf C out))
variable {curators : BTreeSet}

include projected in
theorem hideEdges_spec (reason : Visibility) {x : Hash} {ns : List Neighbor}
    (hns : ∀ n ∈ ns, Adjacent p curators p.edges x n) (g : SupportGraph) :
    ∃ g', ns.foldlM (hideEdge p reason) g = some g' ∧ g'.subjects = g.subjects ∧
      ∀ y m, m ∈ g'.neighbors[y]?.getD ∅ ↔ m ∈ g.neighbors[y]?.getD ∅ ∧
        ∀ n ∈ ns, n.subject = y → m.edge ≠ n.edge := by
  refine foldlM_spec (fun (before : List Neighbor) (g' : SupportGraph) =>
    g'.subjects = g.subjects ∧ ∀ y m, m ∈ g'.neighbors[y]?.getD ∅ ↔ m ∈ g.neighbors[y]?.getD ∅ ∧
      ∀ n ∈ before, n.subject = y → m.edge ≠ n.edge) ⟨rfl, by simp⟩ ?_
  rintro before n after g' heq ⟨hsubjects, inv⟩
  obtain ⟨r, hr, _, hedge, _, ⟨pins, hpins, _⟩, _⟩ := hns n (by simp [heq])
  have hfind := find?_named projected.edges_nodup hr
  rw [hedge] at hfind
  refine ⟨{ g' with
    neighbors := g'.neighbors.modify n.subject fun ms => ms.filter fun m => m.edge ≠ n.edge
    excluded := g'.excluded ++ [⟨n.edge, n.edge, pins.source.subject, pins.target.subject,
      [.asOf reason]⟩] },
    by simp [hideEdge, hfind, hpins], hsubjects, fun y m => ?_⟩
  have hget :
    m ∈ (g'.neighbors.modify n.subject fun ms => ms.filter fun m => m.edge ≠ n.edge)[y]?.getD ∅
      ↔ m ∈ g'.neighbors[y]?.getD ∅ ∧ (n.subject = y → m.edge ≠ n.edge) := by
    rw [Std.ExtTreeMap.getElem?_modify]
    simp only [Std.LawfulEqCmp.compare_eq_iff_eq]
    by_cases hy : n.subject = y
    · subst hy
      rw [if_pos rfl]
      cases g'.neighbors[n.subject]? with
      | none => simp
      | some ms => simp
    · simp [hy]
  rw [hget, inv, and_assoc]
  refine and_congr_right fun _ => ?_
  simp only [List.mem_append, List.mem_singleton]
  constructor
  · rintro ⟨hbefore, hlast⟩ k (hk | rfl)
    · exact hbefore k hk
    · exact hlast
  · exact fun h => ⟨fun k hk => h k (Or.inl hk), h n (Or.inr rfl)⟩

include projected in
theorem hideSubject_spec {hidden : Hash → Prop} {g : SupportGraph}
    (h : g.Holds p curators hidden) (x : Hash) (reason : Visibility) :
    ∃ g', hideSubject p g (x, reason) = some g' ∧
      g'.Holds p curators fun y => hidden y ∨ y = x := by
  have hns : ∀ n ∈ g.neighborsAt x, Adjacent p curators p.edges x n := by
    intro n hn
    exact ((h.neighbors x n).mp (Std.ExtTreeSet.mem_toList.mp hn)).1
  obtain ⟨g', hrun, hsubjects, hneighbors⟩ := hideEdges_spec projected reason hns { g with
    subjects := g.subjects.insert x (.hidden reason), neighbors := g.neighbors.erase x }
  refine ⟨g', hrun, fun y m => ?_, fun y => ?_⟩
  · have herase : m ∈ (g.neighbors.erase x)[y]?.getD ∅ ↔ m ∈ g.neighbors[y]?.getD ∅ ∧ y ≠ x := by
      rw [Std.ExtTreeMap.getElem?_erase]
      simp only [Std.LawfulEqCmp.compare_eq_iff_eq]
      by_cases hy : x = y
      · simp [hy]
      · simp [hy, Ne.symm hy]
    rw [hneighbors, herase, h.neighbors]
    constructor
    · rintro ⟨⟨⟨hadj, hy, hm⟩, hyx⟩, hkeep⟩
      refine ⟨hadj, not_or.mpr ⟨hy, hyx⟩, not_or.mpr ⟨hm, ?_⟩⟩
      -- A neighbor at `x` was listed among those of `x`, and so removed here.
      intro hmx
      obtain ⟨r, hr, supports, hedge, hrelation, joins, htrusted, htrusted'⟩ := hadj
      have hback : (⟨y, m.edge, m.relation⟩ : Neighbor) ∈ g.neighborsAt x := by
        rw [SupportGraph.neighborsAt, Std.ExtTreeSet.mem_toList, h.neighbors]
        exact ⟨⟨r, hr, supports, hedge, hrelation, hmx ▸ joins.symm, hmx ▸ htrusted', htrusted⟩,
          hmx ▸ hm, hy⟩
      exact hkeep _ hback rfl rfl
    · rintro ⟨hadj, hy, hm⟩
      rw [not_or] at hy hm
      refine ⟨⟨⟨hadj, hy.1, hm.1⟩, hy.2⟩, fun n hn hny hedge => ?_⟩
      obtain ⟨r, hr, _, hredge, _, joins, _⟩ := hadj
      obtain ⟨q, hq, _, hqedge, _, joins', _⟩ := hns n hn
      obtain rfl := List.inj_on_of_nodup_map projected.edges_nodup hr hq
        (by rw [hredge, hqedge, hedge])
      rcases joins.other joins' with ⟨hyx, _⟩ | ⟨_, hmx⟩
      · exact hy.2 hyx
      · exact hm.2 hmx
  · rw [hsubjects, getElem?_insert]
    by_cases hy : x = y
    · subst hy
      simp
    · rw [if_neg hy, h.subjects]
      simp [Ne.symm hy]

include projected branch

theorem hiddenAt_spec {g : SupportGraph} (h : g.Holds p curators fun _ => False)
    (asOf : Option Hash) : ∃ hidden, hiddenAt p g asOf = some hidden ∧ ∀ x,
      x ∈ hidden.map Prod.fst ↔
      Resolved p x ∧ Trusted p curators x ∧ ¬ VisibleAt p asOf x := by
  have hresolved : ∀ x, (x, SupportState.subject .resolved) ∈
      g.subjects.toList.filter (fun item => item.2 = .subject .resolved) ↔
      Resolved p x ∧ Trusted p curators x := by
    intro x
    rw [List.mem_filter, Std.ExtTreeMap.mem_toList_iff_getElem?_eq_some, h.subjects]
    simp
  have hread : ∀ item ∈ g.subjects.toList.filter (fun item => item.2 = .subject .resolved),
      ∃ y, (do return (item.1, (← visibility p item.1 asOf).1)) = some y ∧ y.1 = item.1 ∧
        (y.2 = .visible ↔ VisibleAt p asOf y.1) := by
    rintro ⟨x, st⟩ hmem
    obtain rfl : st = .subject .resolved := by simpa using (List.mem_filter.mp hmem).2
    obtain ⟨v, hv, hvisible⟩ := visibility_spec projected branch asOf ((hresolved x).mp hmem).1
    exact ⟨(x, v.1), by simp [hv], rfl, hvisible⟩
  obtain ⟨seen, hseen, hnames, hvisible⟩ := mapM_named hread
  refine ⟨seen.filter fun item => item.2 ≠ .visible, ?_, fun x => ?_⟩
  · unfold hiddenAt
    dsimp only
    rw [hseen]
    rfl
  rw [List.mem_map]
  constructor
  · rintro ⟨⟨y, v⟩, hmem, rfl⟩
    obtain ⟨hmem, hnot⟩ := List.mem_filter.mp hmem
    obtain ⟨⟨z, st⟩, hz, hname⟩ :=
      List.mem_map.mp (hnames ▸ List.mem_map_of_mem (f := Prod.fst) hmem)
    obtain rfl : z = y := hname
    obtain rfl : st = .subject .resolved := by simpa using (List.mem_filter.mp hz).2
    obtain ⟨hres, htrusted⟩ := (hresolved z).mp hz
    exact ⟨hres, htrusted, mt (hvisible _ hmem).mpr (by simpa using hnot)⟩
  · rintro ⟨hres, htrusted, hnot⟩
    have hmem := List.mem_map_of_mem (f := Prod.fst) ((hresolved x).mpr ⟨hres, htrusted⟩)
    obtain ⟨⟨y, v⟩, hy, hname⟩ := List.mem_map.mp (hnames.symm ▸ hmem)
    obtain rfl : y = x := hname
    exact ⟨(y, v), List.mem_filter.mpr ⟨hy, by simpa using mt (hvisible _ hy).mp hnot⟩, rfl⟩

/-- The graph at `asOf` holds the edges between open subjects. -/
theorem supportAt_spec (curators : BTreeSet) (asOf : Option Hash) :
    ∃ g, supportAt p curators asOf = some g ∧ g.Holds p curators fun x =>
      Resolved p x ∧ Trusted p curators x ∧ ¬ VisibleAt p asOf x := by
  obtain ⟨g, hg, holds⟩ := supportGraph_spec projected curators branch
  obtain ⟨hidden, hhidden, hmem⟩ := hiddenAt_spec projected branch holds asOf
  obtain ⟨g', hrun, holds'⟩ : ∃ g', hidden.foldlM (hideSubject p) g = some g' ∧
      g'.Holds p curators fun x => x ∈ hidden.map Prod.fst := by
    refine foldlM_spec (fun before (g : SupportGraph) =>
      g.Holds p curators fun x => x ∈ before.map Prod.fst) (by simpa using holds) ?_
    rintro before ⟨x, reason⟩ after g _ holds
    obtain ⟨g', hrun, holds'⟩ := hideSubject_spec projected holds x reason
    exact ⟨g', hrun, by simpa using holds'⟩
  refine ⟨_,
    by simp only [supportAt, hg, hhidden, hrun, Option.bind_eq_bind, Option.bind_some]; rfl,
    fun x n => ?_, fun x => by rw [holds'.subjects, hmem]⟩
  rw [← hmem, ← hmem, ← holds'.neighbors, Std.ExtTreeMap.getElem?_filter']
  cases g'.neighbors[x]? with
  | none => simp
  | some ns =>
    cases hempty : ns.isEmpty with
    | false => simp [Option.filter, hempty]
    | true =>
      have hnil : ns = ∅ := by simpa using hempty
      simp [Option.filter, hnil]

end

/-! ## Queries -/

section
variable {cr : Crypto} {C : Candidates} {out : BTreeMap Status} {A : Authority} {p : Projection}
variable (projected : Projected cr C out A p) (branch : Branch cr C (validOf C out))
variable {curators : BTreeSet} {asOf : Option Hash} {g : SupportGraph}
variable (holds : g.Holds p curators fun x =>
  Resolved p x ∧ Trusted p curators x ∧ ¬ VisibleAt p asOf x)
include holds

omit projected branch in
theorem objection_none {x : Hash} : g.objection x = none ↔ Open p curators asOf x := by
  have hresolved : g.objection x = none ↔ g.subjects[x]? = some (.subject .resolved) := by
    unfold SupportGraph.objection
    split <;> simp_all
  rw [hresolved, holds.subjects]
  constructor
  · rintro ⟨hres, htrusted, hnot⟩
    exact ⟨hres, htrusted, by_contra fun h => hnot ⟨hres, htrusted, h⟩⟩
  · exact fun h => ⟨h.resolved, h.trusted, fun hnot => hnot.2.2 h.visible⟩

include projected branch

theorem next_step {x edge y : Hash} :
    Search.Step g.next x edge y ↔ Hop p curators asOf x edge y := by
  simp only [Search.Step, SupportGraph.next, SupportGraph.neighborsAt, List.mem_map,
    Std.ExtTreeSet.mem_toList, holds.neighbors, Prod.mk.injEq]
  constructor
  · rintro ⟨n, ⟨⟨r, hr, supports, hedge, _, joins, hx, hy⟩, hnotx, hnoty⟩, rfl, rfl⟩
    have hresx := projected.joined_resolved branch hr supports.current joins
    have hresy := projected.joined_resolved branch hr supports.current joins.symm
    exact ⟨r, hr, supports, hedge, joins,
      ⟨hresx, hx, by_contra fun h => hnotx ⟨hresx, hx, h⟩⟩,
      ⟨hresy, hy, by_contra fun h => hnoty ⟨hresy, hy, h⟩⟩⟩
  · rintro ⟨r, hr, supports, rfl, joins, hx, hy⟩
    exact ⟨⟨y, r.edge, r.relation⟩, ⟨⟨r, hr, supports, rfl, rfl, joins, hx.trusted, hy.trusted⟩,
      fun h => h.2.2 hx.visible, fun h => h.2.2 hy.visible⟩, rfl, rfl⟩

/-- A query answers whether its subjects are connected, with a shortest path. -/
theorem query_spec {source target : Hash} (hne : source ≠ target) (maxHops : Nat) :
    ∃ v, g.query source target maxHops = some v ∧
      (v.IsSupported ↔ Connected p curators asOf maxHops source target) ∧
      ∀ path excluded, v = .supported path excluded →
        Search.Walk (Hop p curators asOf) source path target ∧ path.length ≤ maxHops ∧
          ∀ path', Search.Walk (Hop p curators asOf) source path' target →
            path.length ≤ path'.length := by
  have hstep : Search.Step g.next = Hop p curators asOf := by
    funext x edge y
    exact propext (next_step projected branch holds)
  have hempty : ([source, target].filterMap g.objection).isEmpty = true ↔
      Open p curators asOf source ∧ Open p curators asOf target := by
    rw [← objection_none holds, ← objection_none holds, List.isEmpty_iff, List.filterMap_eq_nil_iff]
    simp
  have hreasons : (if ([source, target].filterMap g.objection).isEmpty && source = target then
      [⟨.sameSubject, some source, none⟩] else [source, target].filterMap g.objection) =
      [source, target].filterMap g.objection := by
    simp [hne]
  unfold SupportGraph.query
  dsimp only
  rw [hreasons]
  by_cases hopen : ([source, target].filterMap g.objection).isEmpty = true
  · rw [if_pos hopen]
    obtain ⟨hsource, htarget⟩ := hempty.mp hopen
    have hshort := @Search.shortest_spec Hash Hash _ compare _ _ g.next source target maxHops
      (Ne.symm hne)
    cases hrun : Search.search g.next target maxHops
        ((∅ : BTreeMap (Option (Hash × Hash))).insert source none) [source] with
    | none =>
      simp only [hrun, hstep, Search.Within] at hshort
      refine ⟨_, rfl, iff_of_false id fun h => hshort h.path, by simp⟩
    | some previous =>
      simp only [hrun, hstep] at hshort
      obtain ⟨back, htrace, hwalk, hlen, hmin⟩ := hshort
      simp only [htrace, Option.bind_eq_bind, Option.bind_some]
      refine ⟨_, rfl, iff_of_true trivial ⟨hsource, htarget, _, hwalk, by simpa using hlen⟩, ?_⟩
      rintro path excluded ⟨⟩
      rw [List.length_reverse]
      exact ⟨hwalk, hlen, hmin⟩
  · rw [if_neg hopen]
    exact ⟨_, rfl, iff_of_false id fun h => hopen (hempty.mpr ⟨h.start, h.finish⟩), by simp⟩

end

theorem Connected.symm {p : Projection} {curators : BTreeSet} {asOf : Option Hash} {maxHops : Nat}
    {source target : Hash} (h : Connected p curators asOf maxHops source target) :
    Connected p curators asOf maxHops target source := by
  obtain ⟨path, hwalk, hlen⟩ := h.path
  exact ⟨h.finish, h.start, path.reverse, hwalk.reverse Hop.symm, by simpa using hlen⟩

theorem Open.later {p : Projection} {curators : BTreeSet} {q : Hash} {asOf : Option Hash}
    (hle : ∀ q', asOf = some q' → q ≤ q') {x : Hash} (h : Open p curators (some q) x) :
    Open p curators asOf x :=
  ⟨h.resolved, h.trusted, h.visible.later hle⟩

theorem Connected.later {p : Projection} {curators : BTreeSet} {q : Hash} {asOf : Option Hash}
    (hle : ∀ q', asOf = some q' → q ≤ q') {maxHops : Nat} {source target : Hash}
    (h : Connected p curators (some q) maxHops source target) :
    Connected p curators asOf maxHops source target := by
  obtain ⟨path, hwalk, hlen⟩ := h.path
  refine ⟨h.start.later hle, h.finish.later hle, path, hwalk.mono ?_, hlen⟩
  rintro x edge y ⟨r, hr, supports, hedge, joins, hx, hy⟩
  exact ⟨r, hr, supports, hedge, joins, hx.later hle, hy.later hle⟩

/-- A verdict is supported exactly between connected subjects, with a shortest path; it does
not depend on their order, and it stays when `as_of` moves on. -/
theorem support_exact (cr : Crypto) (C : Candidates) (free : CollisionFree cr C) {p : Projection}
    (hp : project cr C = some p) (curators : BTreeSet) (asOf : Option Hash) (maxHops : Nat)
    {source target : Hash} (hne : source ≠ target) :
    ∃ v, verdict p curators maxHops source target asOf = some v ∧
      (v.IsSupported ↔ Connected p curators asOf maxHops source target) ∧
      (∀ path excluded, v = .supported path excluded →
        Search.Walk (Hop p curators asOf) source path target ∧ path.length ≤ maxHops ∧
          ∀ path', Search.Walk (Hop p curators asOf) source path' target →
            path.length ≤ path'.length) ∧
      (∃ v', verdict p curators maxHops target source asOf = some v' ∧
        (v'.IsSupported ↔ v.IsSupported)) ∧
      ∀ q, asOf = some q → ∀ later : Option Hash, (∀ q', later = some q' → q ≤ q') →
        ∃ v', verdict p curators maxHops source target later = some v' ∧
          (v.IsSupported → v'.IsSupported) := by
  obtain ⟨out, s, A, p₀, _, verdicts, _, _, hp₀, projected⟩ := project_spec free
  obtain rfl := Option.some.inj (hp.symm.trans hp₀)
  have branch := verdicts.branch
  have hverdict : ∀ (asOf : Option Hash) {source target : Hash}, source ≠ target → ∃ v,
      verdict p curators maxHops source target asOf = some v ∧
      (v.IsSupported ↔ Connected p curators asOf maxHops source target) ∧
      ∀ path excluded, v = .supported path excluded →
        Search.Walk (Hop p curators asOf) source path target ∧ path.length ≤ maxHops ∧
          ∀ path', Search.Walk (Hop p curators asOf) source path' target →
            path.length ≤ path'.length := by
    intro asOf source target hne
    obtain ⟨g, hg, holds⟩ := supportAt_spec projected branch curators asOf
    obtain ⟨v, hv, hiff, hpath⟩ := query_spec projected branch holds hne maxHops
    exact ⟨v, by simp [verdict, hg, hv], hiff, hpath⟩
  obtain ⟨v, hv, hiff, hpath⟩ := hverdict asOf hne
  refine ⟨v, hv, hiff, hpath, ?_, ?_⟩
  · obtain ⟨v', hv', hiff', _⟩ := hverdict asOf (Ne.symm hne)
    refine ⟨v', hv', ?_⟩
    rw [hiff', hiff]
    exact ⟨Connected.symm, Connected.symm⟩
  · rintro q rfl later hle
    obtain ⟨v', hv', hiff', _⟩ := hverdict later hne
    refine ⟨v', hv', fun h => ?_⟩
    rw [hiff']
    exact (hiff.mp h).later hle

def Sample.curators : BTreeSet := .ofList [Sample.alice, Sample.bob, Sample.carol]

theorem support_exact_related : ∃ p v, project Sample.farCrypto related = some p ∧
    verdict p Sample.curators 3 1 9 none = some v ∧ v.IsSupported ∧
    Connected p Sample.curators none 3 1 9 ∧
    ∃ v', verdict p Sample.curators 3 9 1 none = some v' ∧ (v'.IsSupported ↔ v.IsSupported) := by
  have free := related_free
  have h : (do
      let p ← project Sample.farCrypto related
      return (← verdict p Sample.curators 3 1 9 none) = .supported [10] []) = some true := by
    decide +kernel
  obtain ⟨p, hp, h⟩ := Option.bind_eq_some_iff.mp h
  obtain ⟨v, hv, h⟩ := Option.bind_eq_some_iff.mp h
  simp only [Option.pure_def, Option.some.injEq, decide_eq_true_eq] at h
  obtain ⟨v', hv', hiff, _, hback, _⟩ :=
    support_exact Sample.farCrypto related free hp Sample.curators none 3
      (show (1 : Hash) ≠ 9 by decide)
  obtain rfl := Option.some.inj (hv.symm.trans hv')
  have hsupported : v.IsSupported := by rw [h]; trivial
  exact ⟨p, v, hp, hv, hsupported, hiff.mp hsupported, hback⟩

end Clockchain.V1
