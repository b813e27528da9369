import Clockchain.V1.Publisher
import Clockchain.V1.Rows

/-!
# What a grants file says

The context read off a projection lists every grant of the subject with its status and its
lineage, every retained subject event with its effect, and the frontier.
-/

namespace Clockchain.V1
open Relation Maps Programs
set_option autoImplicit false

namespace Publisher

/-- The row lists the grant of `A`, with the issuers of its lineage. -/
structure GrantRow.Lists (cr : Crypto) (W : Candidates) (A : Authority) (r : GrantRow) : Prop where
  grant : ∃ g : Grant, A.grants[r.grant]? = some g ∧ r.holder = g.holder ∧ r.issuer = g.issuer ∧
    r.issuedByEvent = g.issuedByEvent
  active : r.status = .active ↔ r.grant ∈ A.active
  tombstoned : r.status = .tombstoned ↔ r.grant ∉ A.active ∧ r.grant ∈ A.tombstones
  lineage : ∃ above, r.lineage = above ++ [r.grant] ∧
    ∀ x, x ∈ above ↔ (history cr W).Above x r.grant

/-- The row shows the event `e` of `C`. -/
structure EventRow.Shows (cr : Crypto) (C : Candidates) (out : BTreeMap Status) (A : Authority)
    (subject e : Hash) (r : EventRow) : Prop where
  event : r.event = e
  known : ∃ t, C[e]? = some t ∧ isSubject t = true ∧ subjectOf e t = subject ∧
    r.parents = parentsOf t
  valid : r.state ≠ .invalid ∧ r.state ≠ .pending ↔ e ∈ validOf C out
  effect : e ∈ validOf C out → r.effect = reasonOf (history cr (validOf C out)) A.revokes e

structure Context.Reads (cr : Crypto) (C : Candidates) (out : BTreeMap Status) (A : Authority)
    (ctx : Context) : Prop where
  genesis : ∃ s : Signed, (validOf C out)[ctx.subject]? = some s ∧
    s.envelope.payload.kind = .genesis ∧ s.envelope.subjectKey = some ctx.subjectKey
  grants : ∀ r ∈ ctx.grants, r.Lists cr (validOf C out) A
  named : (ctx.grants.map GrantRow.grant).Nodup
  listed : ∀ {g : Hash}, (∃ r ∈ ctx.grants, r.grant = g) ↔
    ∃ grant : Grant, A.grants[g]? = some grant ∧ grant.subject = ctx.subject
  shown : ∀ {e : Hash} {r : EventRow}, ctx.event e = some r → r.Shows cr C out A ctx.subject e
  events : ∀ {e : Hash} {t : Signed}, C[e]? = some t → isSubject t = true →
    subjectOf e t = ctx.subject → ∃ r, ctx.event e = some r
  frontier : ∀ e, e ∈ ctx.frontier ↔
    e ∈ (history cr (validOf C out)).Frontier A.revokes (actsOf (validOf C out) ctx.subject)

/-! ## The grants -/

section
variable {cr : Crypto} {C W : Candidates} (branch : Branch cr C W) {A : Authority}
variable (reads : A.Reads cr W) {s : Snapshot}
variable (hactive : s.active = A.active) (htombstones : s.tombstones = A.tombstones)
include branch reads

/-- The lineage of a grant is that of its issuer and the grant itself. -/
theorem lineage_extends {rows : List GrantRow} (hrows : ∀ r ∈ rows, r.Lists cr W A) {id : Hash}
    {g : Grant} (hg : A.grants[id]? = some g) {lineage : List Hash}
    (h : Snapshot.lineageOf rows id g = some lineage) :
    ∃ above, lineage = above ++ [id] ∧ ∀ x, x ∈ above ↔ (history cr W).Above x id := by
  obtain ⟨e, t, ht, hissued⟩ := reads.grants.mp hg
  unfold Snapshot.lineageOf at h
  cases hissuer : g.issuer with
  | none =>
    rw [hissuer] at h
    refine ⟨[], (Option.some.inj h).symm, fun x => iff_of_false List.not_mem_nil fun habove => ?_⟩
    obtain ⟨i, _, hi⟩ := TransGen.tail'_iff.mp habove
    exact (Branch.grant_root_iff reads hg).mpr hissuer i hi
  | some i =>
    rw [hissuer] at h
    obtain ⟨p, hp, rfl⟩ := Option.map_eq_some_iff.mp h
    have hname : p.grant = i := by simpa using List.find?_some hp
    obtain ⟨above, hlineage, habove⟩ := (hrows p (List.mem_of_find?_eq_some hp)).lineage
    refine ⟨p.lineage, rfl, fun x => ?_⟩
    have hedge : (history cr W).issuer i id := ⟨e, t, g, ht, hissued, hissuer⟩
    rw [hlineage, List.mem_append, habove, List.mem_singleton, hname]
    constructor
    · rintro (h | rfl)
      · exact h.tail hedge
      · exact .single hedge
    · intro h
      obtain ⟨j, hj, hjid⟩ := TransGen.tail'_iff.mp h
      obtain rfl := branch.lawful.issuer_unique hedge hjid
      rcases reflTransGen_iff_eq_or_transGen.mp hj with heq | h
      · exact Or.inr heq.symm
      · exact Or.inl h

include hactive htombstones

theorem retainStep_spec {rows : List GrantRow} (kept : List (Hash × Grant))
    (hrows : ∀ r ∈ rows, r.Lists cr W A) {item : Hash × Grant}
    (hitem : A.grants[item.1]? = some item.2) :
    ∃ rows' kept', s.retainStep (rows, kept) item = (rows', kept') ∧
      (∀ r ∈ rows', r.Lists cr W A) ∧
      ((rows' = rows ∧ kept' = kept ++ [item]) ∨
        (rows'.map GrantRow.grant = rows.map GrantRow.grant ++ [item.1] ∧ kept' = kept)) := by
  obtain ⟨id, g⟩ := item
  cases h : Snapshot.lineageOf rows id g with
  | none =>
    exact ⟨rows, kept ++ [(id, g)], by simp [Snapshot.retainStep, h], hrows, Or.inl ⟨rfl, rfl⟩⟩
  | some lineage =>
    refine ⟨rows ++ [⟨id, s.status id, g.holder, g.issuer, g.issuedByEvent, lineage⟩], kept,
      by simp [Snapshot.retainStep, h], ?_, Or.inr ⟨by simp, rfl⟩⟩
    intro r hr
    rcases List.mem_append.mp hr with hr | hr
    · exact hrows r hr
    · obtain rfl := List.mem_singleton.mp hr
      refine ⟨⟨g, hitem, rfl, rfl, rfl⟩, ?_, ?_, lineage_extends branch reads hrows hitem h⟩
      · by_cases hin : id ∈ A.active
        · simp [Snapshot.status, hactive, hin]
        · by_cases htomb : id ∈ A.tombstones <;>
            simp [Snapshot.status, hactive, htombstones, hin, htomb]
      · by_cases hin : id ∈ A.active
        · simp [Snapshot.status, hactive, hin]
        · by_cases htomb : id ∈ A.tombstones <;>
            simp [Snapshot.status, hactive, htombstones, hin, htomb]

theorem retain_spec {items : List (Hash × Grant)} {rows : List GrantRow}
    (kept : List (Hash × Grant)) (hrows : ∀ r ∈ rows, r.Lists cr W A)
    (hitems : ∀ item ∈ items, A.grants[item.1]? = some item.2) :
    ∃ rows' kept', items.foldl s.retainStep (rows, kept) = (rows', kept') ∧
      (∀ r ∈ rows', r.Lists cr W A) ∧
      (rows'.map GrantRow.grant ++ kept'.map Prod.fst).Perm
        (rows.map GrantRow.grant ++ kept.map Prod.fst ++ items.map Prod.fst) ∧
      ∀ item ∈ kept', item ∈ kept ∨ item ∈ items := by
  induction items generalizing rows kept with
  | nil => exact ⟨rows, kept, rfl, hrows, by simp, fun _ => Or.inl⟩
  | cons item items ih =>
    obtain ⟨rows₁, kept₁, hstep, hrows₁, hcase⟩ := retainStep_spec branch reads hactive htombstones
      kept hrows (hitems item List.mem_cons_self)
    obtain ⟨rows', kept', hfold, hrows', hperm, hkept⟩ :=
      ih kept₁ hrows₁ fun x hx => hitems x (List.mem_cons_of_mem item hx)
    refine ⟨rows', kept', by rw [List.foldl_cons, hstep, hfold], hrows', hperm.trans ?_, ?_⟩
    · rcases hcase with ⟨rfl, rfl⟩ | ⟨hnames, rfl⟩
      · simp
      · rw [hnames]
        simp only [List.map_cons, List.append_assoc, List.singleton_append]
        apply List.Perm.append_left
        exact List.perm_middle.symm
    · intro x hx
      rcases hkept x hx with hx | hx
      · rcases hcase with ⟨_, rfl⟩ | ⟨_, rfl⟩
        · rcases List.mem_append.mp hx with hx | hx
          · exact Or.inl hx
          · exact Or.inr (List.mem_singleton.mp hx ▸ List.mem_cons_self)
        · exact Or.inl hx
      · exact Or.inr (List.mem_cons_of_mem item hx)

/-- The rounds place every grant in one row. -/
theorem grantRows_ok {subject : Hash} {fuel : Nat} {rows out : List GrantRow}
    {todo : List (Hash × Grant)} (hrows : ∀ r ∈ rows, r.Lists cr W A)
    (htodo : ∀ item ∈ todo, A.grants[item.1]? = some item.2)
    (h : s.grantRows subject fuel rows todo = .ok out) :
    (∀ r ∈ out, r.Lists cr W A) ∧
      (out.map GrantRow.grant).Perm (rows.map GrantRow.grant ++ todo.map Prod.fst) := by
  induction fuel generalizing rows todo with
  | zero =>
    cases todo with
    | nil =>
      obtain rfl := Except.ok.inj h
      exact ⟨hrows, by simp⟩
    | cons item todo => cases h
  | succ fuel ih =>
    cases todo with
    | nil =>
      obtain rfl := Except.ok.inj h
      exact ⟨hrows, by simp⟩
    | cons item todo =>
      obtain ⟨rows', kept', hfold, hrows', hperm, hkept⟩ :=
        retain_spec branch reads hactive htombstones [] hrows htodo
      rw [Snapshot.grantRows, hfold] at h
      dsimp only at h
      split at h
      · obtain ⟨hall, hout⟩ := ih hrows' (fun x hx => htodo x ((hkept x hx).resolve_left
          List.not_mem_nil)) h
        exact ⟨hall, hout.trans (hperm.trans (by simp))⟩
      · cases h

end

/-! ## The context -/

theorem context_ok {cr : Crypto} {instanceId subject : Hash} {ctx : Context} {s : Snapshot}
    (h : s.context cr instanceId subject = .ok ctx) : ∃ genesis reading grants,
      s.rows.find? (fun r => r.event = subject) = some genesis ∧
      genesis.envelope.payload.kind = .genesis ∧ genesis.state ≠ .invalid ∧
      genesis.state ≠ .pending ∧
      s.subjects.find? (fun r => r.subject = subject) = some reading ∧
      s.grantRows subject (s.grants.filter fun item => item.2.subject = subject).length []
        (s.grants.filter fun item => item.2.subject = subject) = .ok grants ∧
      genesis.envelope.subjectKey = some ctx.subjectKey ∧ ctx.instanceId = instanceId ∧
      ctx.subject = subject ∧ ctx.frozen = reading.frozen ∧
      ctx.frontier = reading.frontier.toList ∧
      ctx.grants = grants.insertionSort (fun a b => Snapshot.rowBefore a b) ∧
      ctx.events = (s.rows.filter (Snapshot.isSubjectRow subject)).map s.eventRow := by
  unfold Snapshot.context at h
  cases hgenesis : s.rows.find? fun r => r.event = subject with
  | none =>
    rw [hgenesis] at h
    cases h
  | some genesis =>
    simp only [hgenesis, unless_ok] at h
    obtain ⟨hkind, hstate, h⟩ := h
    cases hreading : s.subjects.find? fun r => r.subject = subject with
    | none =>
      rw [hreading] at h
      cases h
    | some reading =>
      simp only [hreading, bind_ok] at h
      obtain ⟨grants, hgrants, h⟩ := h
      cases hkey : genesis.envelope.subjectKey with
      | none =>
        rw [hkey] at h
        cases h
      | some key =>
        simp only [hkey, bind_ok] at h
        obtain ⟨_, _, h⟩ := h
        obtain rfl := Except.ok.inj h
        simp only [Bool.or_eq_true, decide_eq_true_eq, not_or] at hstate
        exact ⟨genesis, reading, grants, rfl, not_not.mp hkind, hstate.1, hstate.2, rfl, hgrants,
          hkey, rfl, rfl, rfl, rfl, rfl, rfl⟩

theorem Snapshot.of_effects {p : Projection} {e : Hash} {effect : Effect}
    (h : p.authority.effects[e]? = some effect) :
    (Snapshot.of p).effects[e]?.getD .none = effect.reason := by
  simp only [Snapshot.of, Std.ExtTreeMap.getElem?_filterMap, h]
  by_cases hreason : effect.reason = .none <;> simp [hreason]

theorem standing_state (F : Set Hash) (common : Hash → Prop) (conflict : Reason) (e : Hash) :
    (standing F common conflict e).1 ≠ .invalid ∧ (standing F common conflict e).1 ≠ .pending := by
  unfold standing
  split_ifs <;> simp

theorem rowOf_state (H : History Hash Hash) (E S : Set Hash) (e : Hash) :
    (rowOf H E S e).state ≠ .invalid ∧ (rowOf H E S e).state ≠ .pending := by
  unfold rowOf
  dsimp only
  split_ifs
  · simp
  · simp
  · exact standing_state _ _ _ e

/-- The row of a subject event tells whether it is valid. -/
theorem Placed.valid_iff {cr : Crypto} {C : Candidates} {out : BTreeMap Status} {A : Authority}
    {e : Hash} {t : Signed} {row : RowState} (ht : C[e]? = some t) (hsubject : isSubject t = true)
    (h : Placed cr C out A e row) :
    row.state ≠ .invalid ∧ row.state ≠ .pending ↔ e ∈ validOf C out := by
  have hverdict : ∀ {st : Status}, out[e]? = some st → st.state ≠ .valid → e ∉ validOf C out := by
    intro st hst hstate he
    obtain ⟨u, hu⟩ := mem_iff.mp he
    obtain ⟨_, _, st', hst', hvalid⟩ := validOf_get.mp hu
    rw [Option.some.inj (hst.symm.trans hst')] at hstate
    exact hstate hvalid
  cases h with
  | subject hs => exact iff_of_true (rowOf_state _ _ _ e) (mem_of_getElem? hs)
  | edge hedge =>
    obtain ⟨u, st, hu, hof, _⟩ := hedge
    obtain rfl := Option.some.inj (ht.symm.trans hu)
    cases hp : t.envelope.payload <;> simp [edgeOf, hp] at hof
    all_goals simp [isSubject, hp, Payload.kind] at hsubject
  | media hmedia =>
    obtain ⟨u, st, hu, hatt, _⟩ := hmedia
    obtain rfl := Option.some.inj (ht.symm.trans hu)
    rw [attestation_subject hatt] at hsubject
    cases hsubject
  | pending hst hstate => exact iff_of_false (by simp) (hverdict hst (by simp [hstate]))
  | invalid hst hstate => exact iff_of_false (by simp) (hverdict hst (by simp [hstate]))

section
variable {cr : Crypto} {C : Candidates} {out : BTreeMap Status} {subjects : Subjects}
variable {A : Authority} {p : Projection} (verdicts : Verdicts cr C out subjects)
variable (reads : A.Reads cr (validOf C out)) (projected : Projected cr C out A p)
include verdicts reads projected

omit verdicts reads projected in
theorem isSubjectRow_iff {r : EventReading} {e subject : Hash} {t : Signed}
    (hevent : r.event = e) (henvelope : r.envelope = t.envelope) :
    Snapshot.isSubjectRow subject r = true ↔ isSubject t = true ∧ subjectOf e t = subject := by
  unfold Snapshot.isSubjectRow isSubject subjectOf
  rw [henvelope, hevent, Bool.and_eq_true, decide_eq_true_iff]
  exact and_comm

omit verdicts in
theorem eventRow_shows {r : EventReading} (hr : r ∈ p.rows) {subject : Hash}
    (hsubject : Snapshot.isSubjectRow subject r = true) :
    ((Snapshot.of p).eventRow r).Shows cr C out A subject r.event := by
  have hreads := projected.rows r hr
  obtain ⟨t, st, ht, hst, henvelope, _⟩ := hreads.known
  obtain ⟨hsub, hof⟩ := (isSubjectRow_iff rfl henvelope).mp hsubject
  refine ⟨rfl, ⟨t, ht, hsub, hof, by simp [Snapshot.eventRow, henvelope, parentsOf]⟩, ?_, ?_⟩
  · exact Placed.valid_iff ht hsub hreads.placed
  · intro hvalid
    obtain ⟨effect, heffect, hreason⟩ := reads.effect hvalid
    exact (Snapshot.of_effects (projected.authority ▸ heffect)).trans hreason

theorem context_reads {instanceId subject : Hash} {ctx : Context}
    (h : (Snapshot.of p).context cr instanceId subject = .ok ctx) :
    ctx.Reads cr C out A ∧ ctx.subject = subject := by
  obtain ⟨genesis, reading, grants, hgenesis, hkind, hinvalid, hpending, hreading, hgrants, hkey, _,
    rfl, hfrozen, hfrontier, hrows, hevents⟩ := context_ok h
  have branch := verdicts.branch
  have hauthority := projected.authority
  refine ⟨?_, rfl⟩
  have hrowsubject : ∀ r ∈ p.rows, ∃ t st, C[r.event]? = some t ∧ out[r.event]? = some st ∧
      r.envelope = t.envelope := fun r hr => by
    obtain ⟨t, st, ht, hst, henvelope, _⟩ := (projected.rows r hr).known
    exact ⟨t, st, ht, hst, henvelope⟩
  have hitems : ∀ item : Hash × Grant, item ∈ (Snapshot.of p).grants.filter
      (fun item => item.2.subject = ctx.subject) ↔
      A.grants[item.1]? = some item.2 ∧ item.2.subject = ctx.subject := by
    rintro ⟨g, grant⟩
    rw [List.mem_filter, decide_eq_true_iff, ← hauthority]
    exact and_congr_left fun _ => Std.ExtTreeMap.mem_toList_iff_getElem?_eq_some
  obtain ⟨hlists, hperm⟩ := grantRows_ok branch reads (s := Snapshot.of p)
    (congrArg Authority.active hauthority) (congrArg Authority.tombstones hauthority)
    (show ∀ r ∈ [], GrantRow.Lists cr (validOf C out) A r by simp)
      (fun item h => ((hitems item).mp h).1) hgrants
  have hsort : ctx.grants.Perm grants := hrows ▸ List.perm_insertionSort _ grants
  have hnames : (ctx.grants.map GrantRow.grant).Perm (((Snapshot.of p).grants.filter
      fun item => item.2.subject = ctx.subject).map Prod.fst) :=
    (hsort.map _).trans (hperm.trans (by simp))
  have hfind : ∀ e r, ctx.event e = some r → ∃ row ∈ p.rows, row.event = e ∧
      Snapshot.isSubjectRow ctx.subject row = true ∧ r = (Snapshot.of p).eventRow row := by
    intro e r hr
    have hmem := List.mem_of_find?_eq_some hr
    rw [hevents, List.mem_map] at hmem
    obtain ⟨row, hrow, rfl⟩ := hmem
    obtain ⟨hrow, hsubject⟩ := List.mem_filter.mp hrow
    have hname := List.find?_some hr
    exact ⟨row, hrow, of_decide_eq_true hname, hsubject, rfl⟩
  refine ⟨?_, fun r hr => hlists r (hsort.mem_iff.mp hr), ?_, fun {g} => ?_, fun {e r} hr => ?_,
    fun {e t} ht hsub hof => ?_, fun e => ?_⟩
  · have hmem := List.mem_of_find?_eq_some hgenesis
    have hname : genesis.event = ctx.subject := by
      simpa using List.find?_some hgenesis
    obtain ⟨t, st, ht, _, henvelope⟩ := hrowsubject genesis hmem
    have hsub : isSubject t = true := by simp [isSubject, ← henvelope, hkind]
    have hvalid := (Placed.valid_iff ht hsub (projected.rows genesis hmem).placed).mp
      ⟨hinvalid, hpending⟩
    rw [hname] at ht hvalid
    exact ⟨t, branch.within.get hvalid ht, henvelope ▸ hkind, henvelope ▸ hkey⟩
  · refine hnames.nodup_iff.mpr ?_
    exact (nodup_fst_toList (t := A.grants)).sublist
      (hauthority ▸ List.filter_sublist.map Prod.fst)
  · rw [← List.mem_map, hnames.mem_iff, List.mem_map]
    constructor
    · rintro ⟨⟨_, grant⟩, hitem, rfl⟩
      exact ⟨grant, (hitems _).mp hitem⟩
    · rintro ⟨grant, hgrant⟩
      exact ⟨(g, grant), (hitems _).mpr hgrant, rfl⟩
  · obtain ⟨row, hrow, rfl, hsubject, rfl⟩ := hfind e r hr
    exact eventRow_shows reads projected hrow hsubject
  · have hkeys : e ∈ p.rows.map EventReading.event := by
      rw [projected.events, Std.ExtTreeMap.mem_keys]
      exact mem_of_getElem? ht
    obtain ⟨row, hrow, rfl⟩ := List.mem_map.mp hkeys
    obtain ⟨u, _, hu, _, henvelope⟩ := hrowsubject row hrow
    obtain rfl := Option.some.inj (ht.symm.trans hu)
    have hisrow : Snapshot.isSubjectRow ctx.subject row = true :=
      (isSubjectRow_iff rfl henvelope).mpr ⟨hsub, hof⟩
    rw [← Option.isSome_iff_exists, Context.event, List.find?_isSome, hevents]
    exact ⟨_, List.mem_map_of_mem (List.mem_filter.mpr ⟨hrow, hisrow⟩), decide_eq_true rfl⟩
  · have hname : reading.subject = ctx.subject := by
      simpa using List.find?_some hreading
    have hreads := projected.subjects reading (List.mem_of_find?_eq_some hreading)
    rw [hfrontier, Std.ExtTreeSet.mem_toList, hreads.frontier, hname]

end

/-! ## The past of an event -/

namespace Context

/-- `p` is a parent of `e` in the file. -/
def Parent (ctx : Context) (p e : Hash) : Prop := ∃ r, ctx.event e = some r ∧ p ∈ r.parents

/-- What the events outside `seen` have still to push. -/
def unpushed (events : List EventRow) (seen : List Hash) : Nat :=
  (events.map fun r => if r.event ∈ seen then 0 else r.parents.length).sum

theorem unpushed_nil (events : List EventRow) :
    unpushed events [] = (events.map fun e => e.parents.length).sum := by
  simp [unpushed]

theorem unpushed_le (events : List EventRow) (id : Hash) (seen : List Hash) :
    unpushed events (id :: seen) ≤ unpushed events seen := by
  induction events with
  | nil => exact le_refl _
  | cons r events ih =>
    simp only [unpushed, List.map_cons, List.sum_cons] at ih ⊢
    by_cases hseen : r.event ∈ seen
    · simp only [hseen, List.mem_cons_of_mem id hseen, if_true]
      omega
    · by_cases hid : r.event ∈ id :: seen
      · simp only [hid, hseen, if_true, if_false]
        omega
      · simp only [hid, hseen, if_false]
        omega

theorem unpushed_cons {events : List EventRow} {r : EventRow} {seen : List Hash}
    (hr : r ∈ events) (hseen : r.event ∉ seen) :
    r.parents.length + unpushed events (r.event :: seen) ≤ unpushed events seen := by
  induction events with
  | nil => cases hr
  | cons a events ih =>
    have hle := unpushed_le events r.event seen
    simp only [unpushed, List.map_cons, List.sum_cons] at ih hle ⊢
    rcases List.mem_cons.mp hr with rfl | hr
    · simp only [List.mem_cons_self, hseen, if_true, if_false]
      omega
    · have hrest := ih hr
      by_cases ha : a.event ∈ seen
      · simp only [ha, List.mem_cons_of_mem r.event ha, if_true]
        omega
      · by_cases hcons : a.event ∈ r.event :: seen
        · simp only [hcons, ha, if_true, if_false]
          omega
        · simp only [hcons, ha, if_false]
          omega

/-- The walk ends with every event it started from and every parent of one it saw. -/
theorem pastFrom_spec (ctx : Context) {fuel : Nat} {todo seen : List Hash}
    (hfuel : todo.length + unpushed ctx.events seen ≤ fuel)
    (hclosed : ∀ e ∈ seen, ∀ p, ctx.Parent p e → p ∈ seen ∨ p ∈ todo) :
    (∀ e, e ∈ todo ∨ e ∈ seen → e ∈ ctx.pastFrom fuel todo seen) ∧
      (∀ e ∈ ctx.pastFrom fuel todo seen, ∀ p, ctx.Parent p e → p ∈ ctx.pastFrom fuel todo seen) ∧
      ∀ e ∈ ctx.pastFrom fuel todo seen,
        e ∈ seen ∨ ∃ a ∈ todo, ReflTransGen ctx.Parent e a := by
  induction fuel generalizing todo seen with
  | zero =>
    obtain rfl : todo = [] := List.length_eq_zero_iff.mp (by omega)
    exact ⟨fun e he => he.resolve_left List.not_mem_nil,
      fun e he p hp => (hclosed e he p hp).resolve_right List.not_mem_nil, fun e he => Or.inl he⟩
  | succ fuel ih =>
    cases todo with
    | nil =>
      exact ⟨fun e he => he.resolve_left List.not_mem_nil,
        fun e he p hp => (hclosed e he p hp).resolve_right List.not_mem_nil, fun e he => Or.inl he⟩
    | cons id todo =>
      by_cases hseen : id ∈ seen
      · have hrun : ctx.pastFrom (fuel + 1) (id :: todo) seen = ctx.pastFrom fuel todo seen := by
          simp [pastFrom, hseen]
        rw [hrun]
        have hrest : ∀ e ∈ seen, ∀ p, ctx.Parent p e → p ∈ seen ∨ p ∈ todo := by
          intro e he p hp
          rcases hclosed e he p hp with h | h
          · exact Or.inl h
          · rcases List.mem_cons.mp h with rfl | h
            · exact Or.inl hseen
            · exact Or.inr h
        rw [List.length_cons] at hfuel
        obtain ⟨hall, hup, honly⟩ := ih (by omega) hrest
        refine ⟨fun e he => hall e ?_, hup, fun e he => (honly e he).imp_right ?_⟩
        · rcases he with he | he
          · rcases List.mem_cons.mp he with rfl | he
            · exact Or.inr hseen
            · exact Or.inl he
          · exact Or.inr he
        · rintro ⟨a, ha, h⟩
          exact ⟨a, List.mem_cons_of_mem id ha, h⟩
      · obtain ⟨parents, hparents, hrun, hcount⟩ : ∃ parents : List Hash,
            (∀ p, p ∈ parents ↔ ctx.Parent p id) ∧
            ctx.pastFrom (fuel + 1) (id :: todo) seen =
              ctx.pastFrom fuel (parents.reverse ++ todo) (id :: seen) ∧
            parents.length + unpushed ctx.events (id :: seen) ≤ unpushed ctx.events seen := by
          cases hevent : ctx.event id with
          | none =>
            refine ⟨[], ?_, by simp [pastFrom, hseen, hevent], ?_⟩
            · simp [Parent, hevent]
            · simpa using unpushed_le ctx.events id seen
          | some r =>
            have hname : r.event = id := by simpa using List.find?_some hevent
            refine ⟨r.parents, ?_, by simp [pastFrom, hseen, hevent], ?_⟩
            · simp [Parent, hevent]
            · subst hname
              exact unpushed_cons (List.mem_of_find?_eq_some hevent) hseen
        rw [hrun]
        rw [List.length_cons] at hfuel
        have hrest : (parents.reverse ++ todo).length + unpushed ctx.events (id :: seen) ≤
            fuel := by
          rw [List.length_append, List.length_reverse]
          omega
        have hnext : ∀ e ∈ id :: seen, ∀ p, ctx.Parent p e →
            p ∈ id :: seen ∨ p ∈ parents.reverse ++ todo := by
          intro e he p hp
          rcases List.mem_cons.mp he with rfl | he
          · exact Or.inr (List.mem_append_left _ (List.mem_reverse.mpr ((hparents p).mpr hp)))
          · rcases hclosed e he p hp with h | h
            · exact Or.inl (List.mem_cons_of_mem id h)
            · rcases List.mem_cons.mp h with rfl | h
              · exact Or.inl List.mem_cons_self
              · exact Or.inr (List.mem_append_right _ h)
        obtain ⟨hall, hup, honly⟩ := ih hrest hnext
        refine ⟨fun e he => hall e ?_, hup, fun e he => ?_⟩
        · rcases he with he | he
          · rcases List.mem_cons.mp he with rfl | he
            · exact Or.inr List.mem_cons_self
            · exact Or.inl (List.mem_append_right _ he)
          · exact Or.inr (List.mem_cons_of_mem id he)
        · rcases honly e he with h | ⟨a, ha, h⟩
          · rcases List.mem_cons.mp h with rfl | h
            · exact Or.inr ⟨e, List.mem_cons_self, .refl⟩
            · exact Or.inl h
          · rcases List.mem_append.mp ha with ha | ha
            · have hparent := (hparents a).mp (List.mem_reverse.mp ha)
              exact Or.inr ⟨id, List.mem_cons_self, h.tail hparent⟩
            · exact Or.inr ⟨a, List.mem_cons_of_mem id ha, h⟩

/-- `past` is reflexive ancestry. -/
theorem past_spec (ctx : Context) {e x : Hash} :
    x ∈ ctx.past e ↔ ReflTransGen ctx.Parent x e := by
  have hfuel : [e].length + unpushed ctx.events [] ≤ ctx.pastFuel := by
    rw [pastFuel, unpushed_nil, List.length_singleton]
  obtain ⟨hall, hup, honly⟩ := ctx.pastFrom_spec hfuel (by simp)
  rw [past, (List.perm_insertionSort _ _).mem_iff]
  constructor
  · intro hx
    obtain ⟨a, ha, h⟩ := (honly x hx).resolve_left List.not_mem_nil
    exact List.mem_singleton.mp ha ▸ h
  · intro hx
    induction hx using ReflTransGen.head_induction_on with
    | refl => exact hall e (Or.inl (List.mem_singleton_self e))
    | head hab _ ih => exact hup _ ih _ hab

theorem Reads.past_iff {cr : Crypto} {C : Candidates} {out : BTreeMap Status} {A : Authority}
    {ctx : Context} (reads : ctx.Reads cr C out A) (branch : Branch cr C (validOf C out))
    {e x : Hash} {t : Signed} (ht : (validOf C out)[e]? = some t)
    (hsubject : subjectOf e t = ctx.subject) :
    x ∈ ctx.past e ↔ (history cr (validOf C out)).Anc x e := by
  rw [past_spec]
  constructor
  · intro h
    induction h using ReflTransGen.head_induction_on with
    | refl => exact .refl
    | @head a c hac _ ih =>
      obtain ⟨r, hr, hparent⟩ := hac
      obtain ⟨u, hu, _, _, hparents⟩ := (reads.shown hr).known
      have hc := branch.within.get (branch.lawful.anc_mem ih (mem_of_getElem? ht)) hu
      exact .head ((parent_iff hc).mpr (hparents ▸ hparent)) ih
  · intro h
    induction h using ReflTransGen.head_induction_on with
    | refl => exact .refl
    | @head a c hac hce ih =>
      obtain ⟨u, hu, hparent⟩ := hac
      have hof := (branch.subject_anc ht hu hce).1.trans hsubject
      obtain ⟨r, hr⟩ := reads.events (branch.within.sub hu) (branch.law hu).subject hof
      obtain ⟨u', hu', _, _, hparents⟩ := (reads.shown hr).known
      obtain rfl := Option.some.inj ((branch.within.sub hu).symm.trans hu')
      exact .head ⟨r, hr, hparents ▸ hparent⟩ ih

end Context

end Publisher

end Clockchain.V1
