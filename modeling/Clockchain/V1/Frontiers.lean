import Clockchain.V1.Reading

/-!
# Frontiers of subjects

On a branch, `project` computes for each subject the frontier of its history, and a
row for every event from that frontier and the event's effect.
-/

namespace Clockchain.V1
open Relation Maps Programs
set_option autoImplicit false

/-- The events of one subject. -/
def actsOf (W : Candidates) (subject : Hash) : Set Hash :=
  {e | ∃ s, W[e]? = some s ∧ subjectOf e s = subject}

open Classical in
/-- The row of an act of `S`. -/
noncomputable def rowOf (H : History Hash Hash) (E S : Set Hash) (e : Hash) : RowState :=
  let place :=
    if reasonOf H E e = .rootRelinquished then (ProjectionState.superseded, Reason.rootRelinquished)
    else if reasonOf H E e ≠ .none then (.branch, reasonOf H E e)
    else standing (H.Frontier E S) (H.Common E S) .contested e
  ⟨place.1, place.2, decide (e ∈ H.Frontier E S)⟩

open Classical in
noncomputable def subjectStateOf (F : Set Hash) : SubjectState :=
  if F = ∅ then .noCurrentBody else if F.Nontrivial then .contested else .resolved

/-- What a subject's reading says. -/
structure SubjectReading.Reads (cr : Crypto) (W : Candidates) (A : Authority) (r : SubjectReading) :
    Prop where
  frontier : ∀ e, e ∈ r.frontier ↔ e ∈ (history cr W).Frontier A.revokes (actsOf W r.subject)
  state : r.state = subjectStateOf ((history cr W).Frontier A.revokes (actsOf W r.subject))
  frozen : r.frozen = false ↔
    ∃ g ∈ A.active, ∃ grant : Grant, A.grants[g]? = some grant ∧ grant.subject = r.subject

theorem eventsOf_mem {W : Candidates} {g e : Hash} : e ∈ eventsOf W g ↔ e ∈ actsOf W g := by
  rw [eventsOf, mem_ofSet, actsOf]
  simp

theorem heads_empty {heads : BTreeSet} {F : Set Hash} (hheads : ∀ e, e ∈ heads ↔ e ∈ F) :
    heads.size = 0 ↔ F = ∅ := by
  rw [heads_ncard hheads, Set.ncard_eq_zero (heads_finite hheads)]

namespace Branch
variable {cr : Crypto} {C W : Candidates} (branch : Branch cr C W)
variable {A : Authority} (reads : A.Reads cr W)
include branch

theorem pasts_spec : ∃ pasts, W.keys.mapM (pastOf W) = some pasts ∧
    Pasts (history cr W) {e | e ∈ W} (.ofList pasts) :=
  pasts_of W.nodup_keys Std.ExtTreeMap.mem_keys
    (fun _ he _ ha => branch.lawful.anc_mem ha he) fun e _ => branch.lawful.before_irrefl e

include reads

theorem eligibleOf_spec {ids : BTreeSet} (hids : ∀ e ∈ ids, e ∈ W) :
    ∃ eligible, eligibleOf A ids = some eligible ∧
      ∀ e, e ∈ eligible ↔ e ∈ ids ∧ (history cr W).Eligible A.revokes e := by
  have hdecides : ∀ e ∈ ids.toList, Decides
      (do return (← A.effects[e]?).reason = .none) ((history cr W).Eligible A.revokes e) := by
    intro e he
    have heW := hids e (Std.ExtTreeSet.mem_toList.mp he)
    obtain ⟨effect, heffect, hreason⟩ := reads.effect heW
    refine ⟨decide (effect.reason = .none), by simp [heffect], ?_⟩
    rw [decide_eq_true_iff, hreason, reasonOf_none branch.lawful heW]
  obtain ⟨kept, hrun, hkept⟩ := filterM_spec hdecides
  refine ⟨.ofList kept, ?_, fun e => ?_⟩
  · unfold eligibleOf
    rw [hrun]
    rfl
  · rw [mem_ofSet, hkept, Std.ExtTreeSet.mem_toList]

variable {ancestors : BTreeMap BTreeSet} (pasts : Pasts (history cr W) {e | e ∈ W} ancestors)
include pasts

theorem frontierOf_spec (g : Hash) : ∃ F, frontierOf A ancestors (eventsOf W g) = some F ∧
    ∀ e, e ∈ F ↔ e ∈ (history cr W).Frontier A.revokes (actsOf W g) := by
  have hids : ∀ e ∈ eventsOf W g, e ∈ W := by
    intro e he
    obtain ⟨s, hs, _⟩ := eventsOf_mem.mp he
    exact mem_of_getElem? hs
  obtain ⟨eligible, hrun, heligible⟩ := branch.eligibleOf_spec reads hids
  have hboth : ∀ e ∈ eligible.toList ++ (A.effectiveRevokes ∩ eventsOf W g).toList, e ∈ W := by
    intro e he
    simp only [List.mem_append, Std.ExtTreeSet.mem_toList, Std.ExtTreeSet.mem_inter_iff] at he
    exact hids e (he.elim (fun h => ((heligible e).mp h).1) And.right)
  obtain ⟨consumed, hconsumed, hbefore⟩ := pasts.strictPast_spec hboth
  refine ⟨eligible \ consumed, by simp [frontierOf, hrun, hconsumed], fun e => ?_⟩
  rw [Std.ExtTreeSet.mem_diff_iff, heligible, hbefore, eventsOf_mem, and_assoc]
  refine and_congr_right fun _ => and_congr_right fun _ => not_congr (exists_congr fun x => ?_)
  simp only [List.mem_append, Std.ExtTreeSet.mem_toList, Std.ExtTreeSet.mem_inter_iff, heligible,
    eventsOf_mem]
  change _ ↔ x ∈ actsOf W g ∧ (_ ∨ x ∈ A.effectiveRevokes) ∧ _
  tauto

omit branch reads in
theorem common_spec {g : Hash} {F : BTreeSet}
    (hF : ∀ e, e ∈ F ↔ e ∈ (history cr W).Frontier A.revokes (actsOf W g)) :
    ∃ common, commonPast ancestors F.toList = some common ∧
      (((history cr W).Frontier A.revokes (actsOf W g)).Nonempty →
        ∀ e, e ∈ common ↔ (history cr W).Common A.revokes (actsOf W g) e) := by
  have hmem : ∀ e ∈ F.toList, e ∈ W := by
    intro e he
    obtain ⟨⟨s, hs, _⟩, _⟩ := (hF e).mp (Std.ExtTreeSet.mem_toList.mp he)
    exact mem_of_getElem? hs
  obtain ⟨common, hrun, hcommon⟩ := pasts.commonPast_spec hmem
  refine ⟨common, hrun, fun ⟨h, hh⟩ e => ?_⟩
  rw [hcommon (List.ne_nil_of_mem (Std.ExtTreeSet.mem_toList.mpr ((hF h).mpr hh)))]
  simp only [Std.ExtTreeSet.mem_toList, hF]
  rfl

open Classical in
omit branch pasts in
theorem rowState_spec {g : Hash} {F common : BTreeSet}
    (hF : ∀ e, e ∈ F ↔ e ∈ (history cr W).Frontier A.revokes (actsOf W g))
    (hcommon : ((history cr W).Frontier A.revokes (actsOf W g)).Nonempty →
      ∀ e, e ∈ common ↔ (history cr W).Common A.revokes (actsOf W g) e)
    {e : Hash} (he : e ∈ W) :
    rowState A F common e = some (rowOf (history cr W) A.revokes (actsOf W g) e) := by
  obtain ⟨effect, heffect, hreason⟩ := reads.effect he
  have hmem : F.contains e = decide (e ∈ (history cr W).Frontier A.revokes (actsOf W g)) := by
    rw [Bool.eq_iff_iff, Std.ExtTreeSet.contains_iff_mem, hF, decide_eq_true_iff]
  simp only [rowState, heffect, Option.bind_eq_bind, Option.bind_some, hreason, rowOf, hmem,
    contention_spec hF hcommon]
  split_ifs with h1 h2
  · simp [h1]
  · rfl
  · rfl

omit branch pasts in
theorem subjectReading_spec {g : Hash} {F : BTreeSet}
    (hF : ∀ e, e ∈ F ↔ e ∈ (history cr W).Frontier A.revokes (actsOf W g)) :
    ∃ r, subjectReading A g F = some r ∧ r.subject = g ∧ r.Reads cr W A := by
  have hdecides : ∀ i ∈ A.active.toList, Decides (do return (← A.grants[i]?).subject = g)
      (∃ grant : Grant, A.grants[i]? = some grant ∧ grant.subject = g) := by
    intro i hi
    obtain ⟨hissued, _⟩ := (reads.active i).mp (Std.ExtTreeSet.mem_toList.mp hi)
    obtain ⟨grant, hgrant⟩ := mem_iff.mp (reads.grant_mem.mpr hissued)
    exact ⟨decide (grant.subject = g), by simp [hgrant], by simp [hgrant]⟩
  obtain ⟨alive, hrun, halive⟩ := Decides.anyM hdecides
  refine ⟨⟨g, F, subjectStateOf ((history cr W).Frontier A.revokes (actsOf W g)), !alive⟩,
    ?_, rfl, hF, rfl, ?_⟩
  · have hempty := heads_empty hF
    have hmany := heads_many hF
    unfold subjectReading subjectStateOf
    rw [hrun]
    rcases hsize : F.size with _ | _ | n
    · rw [if_pos (hempty.mp hsize)]
      rfl
    · rw [if_neg (mt hempty.mpr (by omega)), if_neg (mt hmany.mpr (by omega))]
      rfl
    · rw [if_neg (mt hempty.mpr (by omega)), if_pos (hmany.mp (by omega))]
      rfl
  · simpa [Std.ExtTreeSet.mem_toList] using halive

end Branch

/-! ## All subjects -/

/-- The subjects with a Genesis in `W`, in their order. -/
def genesesOf (W : Candidates) : List Hash :=
  (W.toList.filter fun item => item.2.envelope.payload.kind = .genesis).map Prod.fst

theorem genesesOf_mem {W : Candidates} {g : Hash} :
    g ∈ genesesOf W ↔ ∃ s, W[g]? = some s ∧ s.envelope.payload.kind = .genesis := by
  simp [genesesOf]

theorem genesesOf_nodup (W : Candidates) : (genesesOf W).Nodup :=
  (nodup_fst_toList W).sublist (List.filter_sublist.map Prod.fst)

/-- What the loop over the subjects has read of the subjects `done`. -/
structure SubjectRows (cr : Crypto) (W : Candidates) (A : Authority) (done : List Hash)
    (subjects : List SubjectReading) (states : RowStates) : Prop where
  named : subjects.map SubjectReading.subject = done
  reads : ∀ r ∈ subjects, r.Reads cr W A
  states : ∀ {e : Hash} {row : RowState}, states[e]? = some row ↔ ∃ g ∈ done, e ∈ actsOf W g ∧
    row = rowOf (history cr W) A.revokes (actsOf W g) e

theorem insertRows_get {row : Hash → RowState} {ids : List Hash} {states : RowStates} {e : Hash}
    {r : RowState} : (ids.foldl (fun states e => states.insert e (row e)) states)[e]? = some r ↔
      e ∈ ids ∧ r = row e ∨ e ∉ ids ∧ states[e]? = some r := by
  induction ids generalizing states with
  | nil => simp
  | cons x ids ih =>
    rw [List.foldl_cons, ih, getElem?_insert]
    by_cases hx : x = e
    · subst hx
      by_cases hmem : x ∈ ids <;> simp [hmem, eq_comm]
    · simp [hx, Ne.symm hx]

theorem insertRows_spec {row : Hash → RowState} {f : Hash → Option RowState} {ids : List Hash}
    (hf : ∀ e ∈ ids, f e = some (row e)) (states : RowStates) :
    ids.foldlM (fun states e => do return states.insert e (← f e)) states =
      some (ids.foldl (fun states e => states.insert e (row e)) states) := by
  induction ids generalizing states with
  | nil => rfl
  | cons x ids ih =>
    simp only [List.foldlM_cons, List.foldl_cons, hf x List.mem_cons_self]
    exact ih (fun e he => hf e (List.mem_cons_of_mem x he)) _

namespace Branch
variable {cr : Crypto} {C W : Candidates} (branch : Branch cr C W)
variable {A : Authority} (reads : A.Reads cr W)
variable {ancestors : BTreeMap BTreeSet} (pasts : Pasts (history cr W) {e | e ∈ W} ancestors)
include branch reads pasts

theorem projectSubject_spec {done : List Hash} {subjects : List SubjectReading} {states : RowStates}
    (rows : SubjectRows cr W A done subjects states) {g : Hash} {s : Signed}
    (hkind : s.envelope.payload.kind = .genesis) (hnew : g ∉ done) :
    ∃ subjects' states', projectSubject W A ancestors (subjects, states) (g, s) =
        some (subjects', states') ∧ SubjectRows cr W A (done ++ [g]) subjects' states' := by
  obtain ⟨F, hF, hmem⟩ := branch.frontierOf_spec reads pasts g
  obtain ⟨common, hcommon, hspec⟩ := common_spec pasts hmem
  obtain ⟨r, hr, hg, hreads⟩ := subjectReading_spec reads hmem
  have hids : ∀ e ∈ (eventsOf W g).toList, rowState A F common e =
      some (rowOf (history cr W) A.revokes (actsOf W g) e) := by
    intro e he
    obtain ⟨t, ht, _⟩ := eventsOf_mem.mp (Std.ExtTreeSet.mem_toList.mp he)
    exact rowState_spec reads hmem hspec (mem_of_getElem? ht)
  have hstates := insertRows_spec hids states
  simp only [Option.bind_eq_bind, Option.pure_def] at hstates
  refine ⟨subjects ++ [r], _, by simp [projectSubject, hkind, hF, hcommon, hr, hstates]; rfl,
    ?_, ?_, ?_⟩
  · rw [List.map_append, rows.named, List.map_singleton, hg]
  · intro r' hr'
    rcases List.mem_append.mp hr' with h | h
    · exact rows.reads r' h
    · rw [List.mem_singleton.mp h]
      exact hreads
  · intro e row
    rw [insertRows_get, Std.ExtTreeSet.mem_toList, eventsOf_mem, rows.states]
    constructor
    · rintro (⟨he, rfl⟩ | ⟨_, i, hi, he, rfl⟩)
      · exact ⟨g, by simp, he, rfl⟩
      · exact ⟨i, by simp [hi], he, rfl⟩
    · rintro ⟨i, hi, he, rfl⟩
      rcases List.mem_append.mp hi with hi | hi
      · refine Or.inr ⟨?_, i, hi, he, rfl⟩
        rintro ⟨t, ht, hg⟩
        obtain ⟨u, hu, heq⟩ := he
        obtain rfl := Option.some.inj (ht.symm.trans hu)
        exact hnew (hg ▸ heq ▸ hi)
      · obtain rfl := List.mem_singleton.mp hi
        exact Or.inl ⟨he, rfl⟩

/-- The loop over the subjects reads each of them. -/
theorem projectSubjects_spec : ∃ subjects states,
    W.toList.foldlM (projectSubject W A ancestors) ([], ∅) = some (subjects, states) ∧
      SubjectRows cr W A (genesesOf W) subjects states := by
  let read := fun items : List (Hash × Signed) =>
    (items.filter fun item => item.2.envelope.payload.kind = .genesis).map Prod.fst
  have hrun : ∃ state : List SubjectReading × RowStates,
      W.toList.foldlM (projectSubject W A ancestors) ([], ∅) = some state ∧
        SubjectRows cr W A (read W.toList) state.1 state.2 := by
    refine foldlM_spec (fun before (state : List SubjectReading × RowStates) =>
      SubjectRows cr W A (read before) state.1 state.2) ⟨rfl, by simp, by simp [read]⟩ ?_
    rintro before ⟨g, s⟩ after ⟨subjects, states⟩ heq rows
    by_cases hkind : s.envelope.payload.kind = .genesis
    · have hnew : g ∉ read before := by
        have hnodup := nodup_fst_toList W
        rw [heq, List.map_append, List.map_cons] at hnodup
        intro hmem
        obtain ⟨item, hitem, rfl⟩ := List.mem_map.mp hmem
        have hbefore := List.mem_map_of_mem (f := Prod.fst) (List.mem_filter.mp hitem).1
        exact (List.nodup_append.mp hnodup).2.2 _ hbefore _ List.mem_cons_self rfl
      obtain ⟨subjects', states', hrun, rows'⟩ :=
        branch.projectSubject_spec reads pasts rows hkind hnew
      exact ⟨(subjects', states'), hrun, by simpa [read, List.filter_append, hkind] using rows'⟩
    · exact ⟨(subjects, states), by simp [projectSubject, hkind],
        by simpa [read, List.filter_append, hkind] using rows⟩
  obtain ⟨⟨subjects, states⟩, hrun, rows⟩ := hrun
  exact ⟨subjects, states, hrun, rows⟩

omit reads pasts in
/-- The rows of a branch. -/
theorem subjectRows_get {subjects : List SubjectReading} {states : RowStates}
    (rows : SubjectRows cr W A (genesesOf W) subjects states) {e : Hash} {row : RowState} :
    states[e]? = some row ↔ ∃ s, W[e]? = some s ∧
      row = rowOf (history cr W) A.revokes (actsOf W (subjectOf e s)) e := by
  rw [rows.states]
  constructor
  · rintro ⟨g, _, ⟨s, hs, rfl⟩, rfl⟩
    exact ⟨s, hs, rfl⟩
  · rintro ⟨s, hs, rfl⟩
    obtain ⟨t, ht, hkind, _⟩ := branch.genesis_exists hs
    exact ⟨_, genesesOf_mem.mpr ⟨t, ht, hkind⟩, ⟨s, hs, rfl⟩, rfl⟩

end Branch

end Clockchain.V1
