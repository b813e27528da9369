import Clockchain.V0.Certify
import Clockchain.V0.Pinned
import Clockchain.V0.RecordSet

/-!
# The view of a snapshot

`CorpusView for SnapshotCorpus`. A read at a coordinate sees the records up to it and no others:
later records change no verdict taken before them, and further co-occurrences keep what is
supported.
-/

namespace Clockchain.V0
open V1 (Hash)
set_option autoImplicit false

/-! ## Reads -/

/-- An edge goes to the end unless it is there. -/
def pushEdge (out : List Edge) (e : Edge) : List Edge :=
  if out.getLast? ≠ some e then out ++ [e] else out

/-- `MAX_EVENT_ID`. -/
def maxEventId : Hash := BitVec.allOnes 256

/-- `range(..=(as_of, MAX_EVENT_ID)).next_back()`. -/
def latest {β : Type} (index : EvidenceMap β) (asOf : Tick) : Option (Evidence × β) :=
  (index.toList.filter fun p => evidenceKey p.1 ≤ evidenceKey (asOf, maxEventId)).getLast?

namespace SnapshotCorpus

def neighbors (c : SnapshotCorpus) (entity : EntityId) (asOf : Tick) : List Edge :=
  match c.adjacency[entity]? with
  | none => []
  | some adjacent => adjacent.toList.foldl
      (fun out n => if n.at_.sle asOf then pushEdge out ⟨n.other, n.via⟩ else out) []

def window (c : SnapshotCorpus) (entity : EntityId) (asOf : Tick) : Windowed :=
  match c.windows[entity]?.bind (latest · asOf) with
  | some ((_, via), (start, finish)) => ⟨start, finish, [via]⟩
  | none => .unrecorded

def admitted (c : SnapshotCorpus) (claim : ClaimType) (asOf : Tick) : Admitted :=
  match c.admissibility[claim]?.bind (latest · asOf) with
  | some ((_, via), .valid) => .valid [via]
  | some ((_, via), .outsideValidity bandEnd) => .outsideValidity bandEnd [via]
  | none => .unrecorded

def view (c : SnapshotCorpus) : CorpusView where
  neighbors entity asOf := .ok (c.neighbors entity asOf)
  neighborsMany := neighborsEach fun entity asOf => .ok (c.neighbors entity asOf)
  window entity asOf := .ok (c.window entity asOf)
  admissibility claim asOf := .ok (c.admitted claim asOf)
  corpusDigest := c.digest

/-! ## What a read sees -/

variable {c c' : SnapshotCorpus} {asOf : Tick}

/-- The neighbours are read from those the coordinate lets through. -/
theorem neighbors_eq (c : SnapshotCorpus) (entity : EntityId) (asOf : Tick) :
    c.neighbors entity asOf =
      ((c.adjacency.getD entity ∅).toList.filter fun n => n.at_.sle asOf).foldl
        (fun out n => pushEdge out ⟨n.other, n.via⟩) [] := by
  rw [List.foldl_filter, neighbors, Std.ExtTreeMap.getD_eq_getD_getElem?]
  cases c.adjacency[entity]? with
  | none =>
    have hnil : (∅ : NeighbourSet).toList = [] := List.eq_nil_iff_forall_not_mem.mpr fun n hn =>
      Std.ExtTreeSet.not_mem_empty (Std.ExtTreeSet.mem_toList.mp hn)
    rw [Option.getD_none, hnil]
    rfl
  | some adjacent => rfl

theorem mem_pushEdge {out : List Edge} {e e' : Edge} : e' ∈ pushEdge out e ↔ e' ∈ out ∨ e' = e := by
  unfold pushEdge
  split
  · rw [List.mem_append, List.mem_singleton]
  · next hlast =>
    have hin : e ∈ out := List.mem_of_getLast? (not_not.mp hlast)
    constructor
    · exact .inl
    · rintro (h | rfl)
      · exact h
      · exact hin

theorem mem_neighbors {entity : EntityId} {e : Edge} : e ∈ c.neighbors entity asOf ↔
    ∃ at_ : Tick, at_.sle asOf = true ∧ Linked c.adjacency entity ⟨e.other, e.via, at_⟩ := by
  have hfold : ∀ l : List Neighbour, e ∈ l.foldl (fun out n => pushEdge out ⟨n.other, n.via⟩) [] ↔
      ∃ n ∈ l, e = ⟨n.other, n.via⟩ := by
    intro l
    induction l using List.reverseRecOn with
    | nil => simp
    | append_singleton l n ih =>
      rw [List.foldl_concat, mem_pushEdge, ih]
      simp [or_and_right, exists_or]
  rw [neighbors_eq, hfold]
  constructor
  · rintro ⟨⟨other, via, at_⟩, hn, rfl⟩
    obtain ⟨hmem, hle⟩ := List.mem_filter.mp hn
    exact ⟨at_, hle, Std.ExtTreeSet.mem_toList.mp hmem⟩
  · rintro ⟨at_, hle, hlinked⟩
    exact ⟨_, List.mem_filter.mpr ⟨Std.ExtTreeSet.mem_toList.mpr hlinked, hle⟩, rfl⟩

theorem latest_empty {β : Type} : latest (∅ : EvidenceMap β) asOf = none := by
  simp [latest]

/-- The bound is the coordinate: every event id is at most the greatest. -/
theorem evidence_le {e : Evidence} :
    evidenceKey e ≤ evidenceKey (asOf, maxEventId) ↔ e.1.toInt ≤ asOf.toInt := by
  have hmax : e.2.toNat ≤ maxEventId.toNat := by
    rw [maxEventId, BitVec.toNat_allOnes]
    exact Nat.le_sub_one_of_lt e.2.isLt
  rw [evidenceKey, evidenceKey, Prod.Lex.toLex_le_toLex]
  constructor
  · rintro (hlt | ⟨heq, -⟩)
    · exact hlt.le
    · exact heq.le
  · intro hle
    rcases hle.lt_or_eq with hlt | heq
    · exact .inl hlt
    · exact .inr ⟨heq, hmax⟩

theorem latest_congr {β : Type} {index index' : EvidenceMap β}
    (h : ∀ (e : Evidence) (v : β), e.1.toInt ≤ asOf.toInt →
      (index[e]? = some v ↔ index'[e]? = some v)) : latest index asOf = latest index' asOf := by
  rw [latest, latest]
  refine congrArg _ (Queues.filter_toList_congr fun p hp => h p.1 p.2 ?_)
  exact evidence_le.mp (of_decide_eq_true hp)

/-- The last record up to a coordinate, by what is recorded up to it. -/
theorem latest_getD {κ β : Type} {cmp : κ → κ → Ordering} [Std.TransCmp cmp]
    (index : Std.ExtTreeMap κ (EvidenceMap β) cmp) (k : κ) :
    index[k]?.bind (latest · asOf) = latest (index.getD k ∅) asOf := by
  rw [Std.ExtTreeMap.getD_eq_getD_getElem?]
  cases index[k]? with
  | none => exact latest_empty.symm
  | some inner => rfl

theorem latest_recorded {κ β : Type} {cmp : κ → κ → Ordering} [Std.TransCmp cmp]
    {index index' : Std.ExtTreeMap κ (EvidenceMap β) cmp} {k : κ}
    (h : ∀ e v, e.1.toInt ≤ asOf.toInt → (Recorded index k e v ↔ Recorded index' k e v)) :
    index[k]?.bind (latest · asOf) = index'[k]?.bind (latest · asOf) := by
  rw [latest_getD, latest_getD]
  exact latest_congr h

theorem graph (c : SnapshotCorpus) {R : Record → Prop} (hmeans : c.Means R) (asOf : Tick) :
    c.view.Graph asOf := by
  refine graph_of_each (fun entity => ⟨_, rfl⟩) rfl ?_
  intro x y via edges edges' hx hy hmem
  obtain rfl := Except.ok.inj hx
  obtain rfl := Except.ok.inj hy
  obtain ⟨at_, hle, hlinked⟩ := mem_neighbors.mp hmem
  refine mem_neighbors.mpr ⟨at_, hle, ?_⟩
  rw [hmeans.adjacency] at hlinked ⊢
  exact hlinked.symm

end SnapshotCorpus

/-! ## Later records -/

/-- When a record takes effect. -/
def Record.coordinate : Record → Tick
  | .coOccurrence _ _ at_ _ => at_
  | .window _ recordedAt _ _ _ => recordedAt
  | .admissibility _ recordedAt _ _ => recordedAt

theorem coordinate_oriented (r : Record) : r.oriented.coordinate = r.coordinate := by
  cases r with
  | coOccurrence a b at_ via =>
    rw [Record.oriented]
    split <;> rfl
  | window _ _ _ _ _ => rfl
  | admissibility _ _ _ _ => rfl

theorem neighborsEach_congr {f g : EntityId → Tick → Except ViewError (List Edge)} {asOf : Tick}
    (h : ∀ entity, f entity asOf = g entity asOf) (entities : List EntityId) :
    neighborsEach f entities asOf = neighborsEach g entities asOf := by
  simp only [neighborsEach, h]

namespace SnapshotCorpus
variable {cr : V1.Crypto} {records extra : List Record} {c c' : SnapshotCorpus} {asOf : Tick}

theorem means (h : fromRecords cr records = .ok c) :
    c.Means (· ∈ records.map Record.oriented) := Indexes.project_means (fromRecords_ok.mp h).1

/-- Up to the coordinate the records are the same. -/
theorem mem_up_to (hlater : ∀ r ∈ extra, asOf.slt r.coordinate = true) {r : Record}
    (hr : r.coordinate.toInt ≤ asOf.toInt) :
    r ∈ records.map Record.oriented ↔ r ∈ (records ++ extra).map Record.oriented := by
  rw [List.map_append, List.mem_append, iff_self_or]
  intro hin
  obtain ⟨q, hq, rfl⟩ := List.mem_map.mp hin
  have hlt := BitVec.slt_iff_toInt_lt.mp (hlater q hq)
  rw [coordinate_oriented] at hr
  omega

theorem neighbors_pinned (h : fromRecords cr records = .ok c)
    (h' : fromRecords cr (records ++ extra) = .ok c')
    (hlater : ∀ r ∈ extra, asOf.slt r.coordinate = true) (entity : EntityId) :
    c.neighbors entity asOf = c'.neighbors entity asOf := by
  rw [neighbors_eq, neighbors_eq]
  refine congrArg _ (Queues.filter_toList_set_congr fun n hn => ?_)
  have hle : n.at_.toInt ≤ asOf.toInt := BitVec.sle_iff_toInt_le.mp hn
  change Linked c.adjacency entity n ↔ Linked c'.adjacency entity n
  rw [(means h).adjacency, (means h').adjacency]
  exact or_congr (mem_up_to hlater hle) (mem_up_to hlater hle)

theorem agreeAt (h : fromRecords cr records = .ok c)
    (h' : fromRecords cr (records ++ extra) = .ok c')
    (hlater : ∀ r ∈ extra, asOf.slt r.coordinate = true) : c.view.AgreeAt c'.view asOf where
  neighbors := fun entity => congrArg _ (neighbors_pinned h h' hlater entity)
  neighborsMany := by
    intro entities
    have hread : ∀ entity, c.view.neighbors entity asOf = c'.view.neighbors entity asOf :=
      fun entity => congrArg _ (neighbors_pinned h h' hlater entity)
    have hsame : c.view.neighborsMany entities asOf = c'.view.neighborsMany entities asOf :=
      neighborsEach_congr hread entities
    obtain ⟨out, hout, -⟩ := (c.graph (means h) asOf).neighborsMany entities
    exact ⟨out, out, hout, hsame ▸ hout, fun _ => ⟨Iff.rfl, .refl _⟩⟩
  window := by
    intro entity
    change Except.ok (c.window entity asOf) = Except.ok (c'.window entity asOf)
    rw [window, window, latest_recorded fun e v he => ?_]
    rw [(means h).windows, (means h').windows]
    exact mem_up_to hlater he
  admissibility := by
    intro claim
    change Except.ok (c.admitted claim asOf) = Except.ok (c'.admitted claim asOf)
    rw [admitted, admitted, latest_recorded fun e v he => ?_]
    rw [(means h).admissibility, (means h').admissibility]
    exact mem_up_to hlater he

end SnapshotCorpus

/-! ## Support -/

/-- What is supported passed every factor. -/
theorem supported_iff {f : Filter} {v : CorpusView} {q : FeasibilityQuery} :
    (∃ j support, f.feasibility v q = .ok j ∧ j.verdict = .supported support) ↔
      f.checkQuery q = .ok () ∧ ∀ x ∈ factors v q, x = .ok .holds := by
  rw [feasibility_first]
  cases f.checkQuery q with
  | error e =>
    exact iff_of_false (by rintro ⟨j, support, hj, -⟩; nomatch hj) (by rintro ⟨h, -⟩; nomatch h)
  | ok _ =>
    have hnone : Reads.first vanished (factors v q) = .ok none ↔
        ∀ x ∈ factors v q, x = .ok .holds := by
      rw [Reads.first_none]
      refine forall₂_congr fun x _ => ⟨?_, ?_⟩
      · rintro ⟨o, rfl, ho⟩
        rw [holds_of_not_vanished ho]
      · rintro rfl
        exact ⟨.holds, rfl, rfl⟩
    rw [← hnone]
    cases hfirst : Reads.first vanished (factors v q) with
    | error e =>
      exact iff_of_false (by rintro ⟨j, support, hj, -⟩; nomatch hj) (by rintro ⟨-, h⟩; nomatch h)
    | ok first =>
      cases first with
      | none => exact iff_of_true ⟨_, _, rfl, rfl⟩ ⟨rfl, rfl⟩
      | some o =>
        refine iff_of_false ?_ (by rintro ⟨-, h⟩; nomatch h)
        rintro ⟨j, support, hj, hsupport⟩
        obtain rfl := Except.ok.inj hj
        have hnames : (verdictOf v q (some o)).Names o := verdictOf_follows hfirst
        rw [show verdictOf v q (some o) = .supported support from hsupport] at hnames
        cases o with
        | holds => exact hnames
        | absent w =>
          obtain ⟨others, hverdict⟩ := hnames
          nomatch hverdict
        | contrary w => nomatch hnames

/-- More links keep what is within reach. -/
theorem within_mono {v v' : CorpusView} {asOf : Tick} (h : v.Graph asOf) (h' : v'.Graph asOf)
    (hsub : ∀ {x via y}, Search.Step (v.links asOf) x via y → Search.Step (v'.links asOf) x via y)
    {source target : EntityId} {k : Nat} {support : PhiSupport}
    (hwithin : knownK v source target k asOf = .ok (.within support)) :
    ∃ support', knownK v' source target k asOf = .ok (.within support') := by
  rw [knownK_eq] at hwithin ⊢
  rcases knownKOn_spec h Search.smallerFrontier source target k with
    ⟨hnone, -⟩ | ⟨support, -, hcanonical⟩
  · nomatch hnone.symm.trans hwithin
  · obtain ⟨path, hwalk, hlen⟩ := hcanonical.distance.1
    rcases knownKOn_spec h' Search.smallerFrontier source target k with
      ⟨-, hfar⟩ | ⟨support', hsupport', -⟩
    · exact absurd ⟨path, hwalk.mono hsub, hlen.trans hcanonical.bound⟩ hfar
    · exact ⟨support', hsupport'⟩

/-- A co-occurrence is not a record of a window or a ruling. -/
def Record.Links : Record → Prop
  | .coOccurrence _ _ _ _ => True
  | _ => False

namespace SnapshotCorpus
variable {cr : V1.Crypto} {records extra : List Record} {c c' : SnapshotCorpus}

theorem mem_of_not_links (hlinks : ∀ r ∈ extra, r.Links) {r : Record} (hr : ¬ r.Links) :
    r ∈ records.map Record.oriented ↔ r ∈ (records ++ extra).map Record.oriented := by
  rw [List.map_append, List.mem_append, iff_self_or]
  intro hin
  obtain ⟨q, hq, rfl⟩ := List.mem_map.mp hin
  have hq := hlinks q hq
  cases q with
  | coOccurrence a b at_ via =>
    rw [Record.oriented] at hr
    split at hr
    · exact absurd trivial hr
    · exact absurd trivial hr
  | window _ _ _ _ _ => exact hq.elim
  | admissibility _ _ _ _ => exact hq.elim

/-- Co-occurrences leave windows and rulings alone. -/
theorem same_lookups (h : fromRecords cr records = .ok c)
    (h' : fromRecords cr (records ++ extra) = .ok c') (hlinks : ∀ r ∈ extra, r.Links)
    (asOf : Tick) :
    (∀ entity, c.view.window entity asOf = c'.view.window entity asOf) ∧
      ∀ claim, c.view.admissibility claim asOf = c'.view.admissibility claim asOf := by
  constructor
  · intro entity
    change Except.ok (c.window entity asOf) = Except.ok (c'.window entity asOf)
    rw [window, window, latest_recorded fun e v _ => ?_]
    rw [(means h).windows, (means h').windows]
    exact mem_of_not_links hlinks id
  · intro claim
    change Except.ok (c.admitted claim asOf) = Except.ok (c'.admitted claim asOf)
    rw [admitted, admitted, latest_recorded fun e v _ => ?_]
    rw [(means h).admissibility, (means h').admissibility]
    exact mem_of_not_links hlinks id

theorem step_mono (h : fromRecords cr records = .ok c)
    (h' : fromRecords cr (records ++ extra) = .ok c') {asOf : Tick} {x y : EntityId} {via : Hash}
    (hstep : Search.Step (c.view.links asOf) x via y) :
    Search.Step (c'.view.links asOf) x via y := by
  rw [step_iff rfl, mem_neighbors] at hstep ⊢
  obtain ⟨at_, hle, hlinked⟩ := hstep
  refine ⟨at_, hle, ?_⟩
  rw [(means h).adjacency] at hlinked
  rw [(means h').adjacency, List.map_append]
  exact hlinked.imp (List.mem_append_left _) (List.mem_append_left _)

theorem supported_stays (h : fromRecords cr records = .ok c)
    (h' : fromRecords cr (records ++ extra) = .ok c') (hlinks : ∀ r ∈ extra, r.Links)
    {f : Filter} {q : FeasibilityQuery}
    (hsupported : ∃ j support, f.feasibility c.view q = .ok j ∧ j.verdict = .supported support) :
    ∃ j support, f.feasibility c'.view q = .ok j ∧ j.verdict = .supported support := by
  rw [supported_iff] at hsupported ⊢
  refine hsupported.imp_right fun hall => ?_
  obtain ⟨hwindow, hadmissibility⟩ := same_lookups h h' hlinks q.tQ
  simp only [factors, List.forall_mem_cons, hwindow, hadmissibility] at hall ⊢
  refine hall.imp_right (And.imp_right (And.imp_right (And.imp_left fun hreach => ?_)))
  obtain ⟨reach, hknown, houtcome⟩ := map_ok hreach
  cases reach with
  | none w => cases houtcome
  | within support =>
    obtain ⟨support', hknown'⟩ := within_mono (c.graph (means h) q.tQ) (c'.graph (means h') q.tQ)
      (step_mono h h') hknown
    rw [hknown']
    rfl

/-- Co-occurrences keep what is supported, and records after the query's coordinate change
nothing. -/
theorem filter_pinned (h : fromRecords cr records = .ok c)
    (h' : fromRecords cr (records ++ extra) = .ok c') (f : Filter) (q : FeasibilityQuery) :
    ((∀ r ∈ extra, r.Links) →
      (∃ j support, f.feasibility c.view q = .ok j ∧ j.verdict = .supported support) →
      ∃ j support, f.feasibility c'.view q = .ok j ∧ j.verdict = .supported support) ∧
    ((∀ r ∈ extra, q.tQ.slt r.coordinate = true) →
      (f.feasibility c.view q).map Judgment.consensusProjection =
          (f.feasibility c'.view q).map Judgment.consensusProjection ∧
        (f.certify c.view q).map (fun cert => cert.judgment.consensusProjection) =
          (f.certify c'.view q).map fun cert => cert.judgment.consensusProjection) := by
  refine ⟨fun hlinks => supported_stays h h' hlinks, fun hlater => ?_⟩
  have hagree := agreeAt h h' hlater
  exact ⟨feasibility_congr hagree f q rfl, certify_congr hagree f q rfl⟩

end SnapshotCorpus

namespace SnapshotSample
open SnapshotCorpus

/-- Two entities with a shared neighbour, and a claim type. -/
def base : List Record :=
  [.window 1 0 5 (.known 0) .knownOpen, .window 2 0 6 (.known 0) .unknownClosure,
    .admissibility 3 0 7 .valid, .coOccurrence 1 4 1 8, .coOccurrence 4 2 2 9]

def added : List Record := [.coOccurrence 1 2 3 10]

def query (tQ : Tick) : FeasibilityQuery := ⟨(1, 2), tQ, 3, 2⟩

/-- The neighbour is two hops away from both. -/
theorem base_supported {c : SnapshotCorpus} (h : fromRecords crypto base = .ok c) :
    ∃ j support, (⟨4, 0⟩ : Filter).feasibility c.view (query 10) = .ok j ∧
      j.verdict = .supported support := by
  have hgraph := c.graph (means h) 10
  have hfirst : Search.Step (c.view.links 10) 1 8 4 := by
    obtain rfl : _ = c := Except.ok.inj h
    exact (step_iff rfl).mpr (by decide)
  have hsecond : Search.Step (c.view.links 10) 4 9 2 := by
    obtain rfl : _ = c := Except.ok.inj h
    exact (step_iff rfl).mpr (by decide)
  have hreach : (knownK c.view 1 2 2 10).map Reachability.outcome = .ok .holds := by
    rw [knownK_eq]
    rcases knownKOn_spec hgraph Search.smallerFrontier 1 2 2 with
      ⟨-, hfar⟩ | ⟨support, hwithin, -⟩
    · exact absurd ⟨_, (Search.Walk.single hfirst).snoc hsecond, le_rfl⟩ hfar
    · rw [hwithin]
      rfl
  rw [supported_iff]
  simp only [factors, List.forall_mem_cons]
  obtain rfl : _ = c := Except.ok.inj h
  exact ⟨rfl, rfl, rfl, rfl, hreach, fun x hx => by cases hx⟩

/-- A link recorded at 3 leaves what was supported at 10 and every answer at 2. -/
theorem added_pinned : ∃ c c', fromRecords crypto base = .ok c ∧
    fromRecords crypto (base ++ added) = .ok c' ∧
    (∃ j support, (⟨4, 0⟩ : Filter).feasibility c'.view (query 10) = .ok j ∧
      j.verdict = .supported support) ∧
    ((⟨4, 0⟩ : Filter).feasibility c.view (query 2)).map Judgment.consensusProjection =
      ((⟨4, 0⟩ : Filter).feasibility c'.view (query 2)).map Judgment.consensusProjection ∧
    ((⟨4, 0⟩ : Filter).certify c.view (query 2)).map
        (fun cert => cert.judgment.consensusProjection) =
      ((⟨4, 0⟩ : Filter).certify c'.view (query 2)).map
        fun cert => cert.judgment.consensusProjection := by
  have hlinks : ∀ r ∈ added, r.Links := by simp [added, Record.Links]
  have hlater : ∀ r ∈ added, (2 : Tick).slt r.coordinate = true := by decide
  obtain ⟨c, hc⟩ : ∃ c, fromRecords crypto base = .ok c := ⟨_, rfl⟩
  obtain ⟨c', hc'⟩ : ∃ c', fromRecords crypto (base ++ added) = .ok c' := ⟨_, rfl⟩
  exact ⟨c, c', hc, hc', (filter_pinned hc hc' ⟨4, 0⟩ (query 10)).1 hlinks (base_supported hc),
    (filter_pinned hc hc' ⟨4, 0⟩ (query 2)).2 hlater⟩

end SnapshotSample

end Clockchain.V0
