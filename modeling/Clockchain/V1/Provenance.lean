import Clockchain.V1.Lineage

/-!
# The first loop of `derive`

On a branch the loop settles every event, and its maps read the history of the branch:
`ancestors` is causal ancestry, a lineage is issuance ancestry and `grants` is what the
Genesis and the Delegates of the branch issue.
-/

namespace Clockchain.V1
open Relation Maps Programs
set_option autoImplicit false

/-- Uniting the sets that a map gives for a list of its keys. -/
theorem unions_spec {sets : BTreeMap BTreeSet} {ids : List Hash} {start : BTreeSet}
    (h : ∀ q ∈ ids, q ∈ sets) :
    ∃ t, ids.foldlM (fun past q => do return past ∪ (← sets[q]?)) start = some t ∧
      ∀ a, a ∈ t ↔ a ∈ start ∨ ∃ q ∈ ids, ∃ s, sets[q]? = some s ∧ a ∈ s := by
  refine foldlM_spec (fun before t => ∀ a, a ∈ t ↔ a ∈ start ∨
    ∃ q ∈ before, ∃ s, sets[q]? = some s ∧ a ∈ s) (by simp) ?_
  intro before q after t heq ht
  obtain ⟨s, hs⟩ := mem_iff.mp (h q (by simp [heq]))
  refine ⟨t ∪ s, by simp [hs], fun a => ?_⟩
  rw [Std.ExtTreeSet.mem_union_iff, ht a]
  constructor
  · rintro ((ha | ⟨p, hp, r, hr, ha⟩) | ha)
    · exact Or.inl ha
    · exact Or.inr ⟨p, List.mem_append_left _ hp, r, hr, ha⟩
    · exact Or.inr ⟨q, by simp, s, hs, ha⟩
  · rintro (ha | ⟨p, hp, r, hr, ha⟩)
    · exact Or.inl (Or.inl ha)
    · rcases List.mem_append.mp hp with hp | hp
      · exact Or.inl (Or.inr ⟨p, hp, r, hr, ha⟩)
      · obtain rfl := List.mem_singleton.mp hp
        rw [hs] at hr
        exact Or.inr (Option.some.inj hr ▸ ha)

/-! ## Grants, lineage and ancestry -/

/-- What a provenance holds of `W` is right, and it holds the past of all it holds. -/
structure Provenance.Reads (cr : Crypto) (W : Candidates) (p : Provenance) : Prop where
  past : ∀ {e past}, p.ancestors[e]? = some past →
    e ∈ W ∧ ∀ a, a ∈ past ↔ (history cr W).Anc a e
  closed : ∀ {e s q}, e ∈ p.ancestors → W[e]? = some s → q ∈ parentsOf s → q ∈ p.ancestors
  grant : ∀ {g grant}, p.grants[g]? = some grant ↔ ∃ e s, e ∈ p.ancestors ∧ W[e]? = some s ∧
    issued cr e s.envelope = some (some (g, grant))
  traced : ∀ {g}, g ∈ p.lineage ↔ g ∈ p.grants
  lineage : ∀ {g path}, p.lineage[g]? = some path → ∀ t, t ∈ path ↔ (history cr W).Under t g

namespace Provenance.Reads
variable {cr : Crypto} {W : Candidates} {p : Provenance} (reads : p.Reads cr W)
include reads

theorem known_mem {e : Hash} (he : e ∈ p.ancestors) : e ∈ W := by
  obtain ⟨past, hpast⟩ := mem_iff.mp he
  exact (reads.past hpast).1

theorem anc_known {a e : Hash} (he : e ∈ p.ancestors) (h : (history cr W).Anc a e) :
    a ∈ p.ancestors := by
  induction h using ReflTransGen.head_induction_on with
  | refl => exact he
  | head hp _ ih =>
    obtain ⟨s, hs, hp⟩ := hp
    exact reads.closed ih hs hp

theorem grant_mem {g : Hash} : g ∈ p.grants ↔
    ∃ e ∈ p.ancestors, (history cr W).issues e g := by
  constructor
  · intro hg
    obtain ⟨grant, hg⟩ := mem_iff.mp hg
    obtain ⟨e, s, he, hs, hissue⟩ := reads.grant.mp hg
    exact ⟨e, he, s, grant, hs, hissue⟩
  · rintro ⟨e, he, s, grant, hs, hissue⟩
    exact mem_of_getElem? (reads.grant.mpr ⟨e, s, he, hs, hissue⟩)

end Provenance.Reads

/-- A provenance that holds all of `W`. -/
structure Provenance.Complete (cr : Crypto) (W : Candidates) (p : Provenance) : Prop where
  reads : p.Reads cr W
  all : ∀ e ∈ W, e ∈ p.ancestors

namespace Provenance.Complete
variable {cr : Crypto} {W : Candidates} {p : Provenance} (complete : p.Complete cr W)
include complete

theorem ancestors {e : Hash} (he : e ∈ W) :
    ∃ past, p.ancestors[e]? = some past ∧ ∀ a, a ∈ past ↔ (history cr W).Anc a e := by
  obtain ⟨past, hpast⟩ := mem_iff.mp (complete.all e he)
  exact ⟨past, hpast, (complete.reads.past hpast).2⟩

theorem grant {g : Hash} {grant : Grant} : p.grants[g]? = some grant ↔
    ∃ e s, W[e]? = some s ∧ issued cr e s.envelope = some (some (g, grant)) := by
  rw [complete.reads.grant]
  constructor
  · rintro ⟨e, s, _, hs, hi⟩
    exact ⟨e, s, hs, hi⟩
  · rintro ⟨e, s, hs, hi⟩
    exact ⟨e, s, complete.all e (mem_of_getElem? hs), hs, hi⟩

theorem grant_mem {g : Hash} : g ∈ p.grants ↔ ∃ e, (history cr W).issues e g := by
  rw [complete.reads.grant_mem]
  constructor
  · rintro ⟨e, _, he⟩
    exact ⟨e, he⟩
  · rintro ⟨e, s, grant, hs, hi⟩
    exact ⟨e, complete.all e (mem_of_getElem? hs), s, grant, hs, hi⟩

theorem lineage {g e : Hash} (he : (history cr W).issues e g) :
    ∃ path, p.lineage[g]? = some path ∧ (∀ t, t ∈ path ↔ (history cr W).Under t g) ∧
      path.size = (history cr W).depth g := by
  obtain ⟨path, hpath⟩ := mem_iff.mp
    (complete.reads.traced.mpr (complete.grant_mem.mpr ⟨e, he⟩))
  have hunder := complete.reads.lineage hpath
  refine ⟨path, hpath, hunder, ?_⟩
  rw [← ncard_set, History.depth]
  exact congrArg Set.ncard (Set.ext hunder)

end Provenance.Complete

theorem under_iff {H : History Hash Hash} {t g : Hash} :
    H.Under t g ↔ t = g ∨ ∃ i, H.issuer i g ∧ H.Under t i := by
  constructor
  · intro h
    rcases ReflTransGen.cases_tail h with heq | ⟨i, hti, hi⟩
    · exact Or.inl heq.symm
    · exact Or.inr ⟨i, hi, hti⟩
  · rintro (rfl | ⟨i, hi, hti⟩)
    · exact ReflTransGen.refl
    · exact hti.tail hi

namespace Branch
variable {cr : Crypto} {C W : Candidates} (branch : Branch cr C W)
include branch

theorem issued_some {e : Hash} {s : Signed} (hs : W[e]? = some s) :
    ∃ grant, issued cr e s.envelope = some grant := by
  cases hp : s.envelope.payload <;> simp only [issued, hp, Option.some.injEq, exists_eq']
  obtain ⟨hsubject, _⟩ := (branch.law hs).header (by simp [hp, Payload.kind])
  obtain ⟨subject, hsubject⟩ := Option.isSome_iff_exists.mp hsubject
  simp [hsubject]

omit branch in
/-- Ancestry read off the parents. -/
theorem anc_parents {a e : Hash} {s : Signed} (hs : W[e]? = some s) :
    (history cr W).Anc a e ↔ a = e ∨ ∃ q ∈ parentsOf s, (history cr W).Anc a q := by
  constructor
  · intro h
    rcases h.eq_or_before with rfl | h
    · exact Or.inl rfl
    · obtain ⟨q, haq, hq⟩ := History.before_iff.mp h
      exact Or.inr ⟨q, (parent_iff hs).mp hq, haq⟩
  · rintro (rfl | ⟨q, hq, haq⟩)
    · exact ReflTransGen.refl
    · exact haq.tail ((parent_iff hs).mpr hq)

omit branch in
theorem provenance_extend {p p' : Provenance} (reads : p.Reads cr W) {e : Hash} {s : Signed}
    {past : BTreeSet} (hs : W[e]? = some s) (hready : ∀ q ∈ parentsOf s, q ∈ p.ancestors)
    (hpast : ∀ a, a ∈ past ↔ (history cr W).Anc a e)
    (hancestors : p'.ancestors = p.ancestors.insert e past)
    (hgrants : ∀ g grant, p'.grants[g]? = some grant ↔
      p.grants[g]? = some grant ∨ issued cr e s.envelope = some (some (g, grant)))
    (htraced : ∀ g, g ∈ p'.lineage ↔ g ∈ p'.grants)
    (hlineage : ∀ g path, p'.lineage[g]? = some path →
      p.lineage[g]? = some path ∨ ∀ t, t ∈ path ↔ (history cr W).Under t g) :
    p'.Reads cr W ∧ ∀ k, k ∈ p'.ancestors ↔ k ∈ p.ancestors ∨ k = e := by
  have hmem : ∀ k, k ∈ p'.ancestors ↔ k ∈ p.ancestors ∨ k = e := by
    intro k
    rw [hancestors, mem_map_insert, or_comm]
  refine ⟨⟨?_, ?_, ?_, fun {g} => htraced g, ?_⟩, hmem⟩
  · intro k past' hk
    rw [hancestors, getElem?_insert] at hk
    split at hk
    case isTrue heq =>
      subst heq
      obtain rfl := Option.some.inj hk
      exact ⟨mem_of_getElem? hs, hpast⟩
    case isFalse => exact reads.past hk
  · intro k t q hk ht hq
    rcases (hmem k).mp hk with hk | rfl
    · exact (hmem q).mpr (Or.inl (reads.closed hk ht hq))
    · obtain rfl := Option.some.inj (hs.symm.trans ht)
      exact (hmem q).mpr (Or.inl (hready q hq))
  · intro g grant
    rw [hgrants, reads.grant]
    constructor
    · rintro (⟨d, t, hd, ht, hi⟩ | hi)
      · exact ⟨d, t, (hmem d).mpr (Or.inl hd), ht, hi⟩
      · exact ⟨e, s, (hmem e).mpr (Or.inr rfl), hs, hi⟩
    · rintro ⟨d, t, hd, ht, hi⟩
      rcases (hmem d).mp hd with hd | rfl
      · exact Or.inl ⟨d, t, hd, ht, hi⟩
      · obtain rfl := Option.some.inj (hs.symm.trans ht)
        exact Or.inr hi
  · intro g path hg
    rcases hlineage g path hg with h | h
    · exact reads.lineage h
    · exact h

/-- The lineage that `record` extends is known, and the extension is right. -/
theorem record_path {p : Provenance} (reads : p.Reads cr W) {e g : Hash} {s : Signed}
    {grant : Grant} (hs : W[e]? = some s) (hready : ∀ q ∈ parentsOf s, q ∈ p.ancestors)
    (hissue : issued cr e s.envelope = some (some (g, grant))) :
    ∃ path, p.above grant = some path ∧ ∀ t, t ∈ path.insert g ↔ (history cr W).Under t g := by
  cases hi : grant.issuer with
  | none =>
    refine ⟨∅, by simp only [Provenance.above, hi], fun t => ?_⟩
    rw [under_iff, mem_insert]
    have hroot : ∀ i, ¬ (history cr W).issuer i g := by
      rintro i ⟨d, u, grant', hu, hd, hi'⟩
      obtain rfl := branch.lawful.issues_event ⟨u, grant', hu, hd⟩ ⟨s, grant, hs, hissue⟩
      obtain rfl := Option.some.inj (hs.symm.trans hu)
      obtain rfl : grant = grant' := by simpa using hissue.symm.trans hd
      simp [hi] at hi'
    constructor
    · exact fun h => Or.inl (h.resolve_right Std.ExtTreeSet.not_mem_empty)
    · exact fun h => Or.inl (h.resolve_right fun ⟨i, hi, _⟩ => hroot i hi)
  | some i =>
    have hissuer : (history cr W).issuer i g := ⟨e, s, grant, hs, hissue, hi⟩
    obtain ⟨d, e', hd, he', hbefore⟩ := branch.issuer_before hissuer
    obtain rfl := branch.lawful.issues_event he' ⟨s, grant, hs, hissue⟩
    obtain ⟨q, hdq, hq⟩ := History.before_iff.mp hbefore
    have hknown := reads.anc_known (hready q ((parent_iff hs).mp hq)) hdq
    obtain ⟨path, hpath⟩ := mem_iff.mp (reads.traced.mpr (reads.grant_mem.mpr ⟨d, hknown, hd⟩))
    refine ⟨path, by simpa only [Provenance.above, hi] using hpath, fun t => ?_⟩
    rw [under_iff, mem_insert, reads.lineage hpath]
    refine or_congr_right ⟨fun h => ⟨i, hissuer, h⟩, ?_⟩
    rintro ⟨j, hj, h⟩
    rwa [branch.lawful.issuer_unique hissuer hj]

/-- Settling one event whose parents are settled. -/
theorem provenance_work {p : Provenance} (reads : p.Reads cr W) {e : Hash} {s : Signed}
    (hs : W[e]? = some s) (hnew : e ∉ p.ancestors) (hready : ∀ q ∈ parentsOf s, q ∈ p.ancestors) :
    ∃ p', provenanceStep cr p (e, s) = some p' ∧ p'.Reads cr W ∧
      ∀ k, k ∈ p'.ancestors ↔ k ∈ p.ancestors ∨ k = e := by
  obtain ⟨past, hrun, hunion⟩ := @unions_spec p.ancestors (parentsOf s) {e} hready
  have hpast : ∀ a, a ∈ past ↔ (history cr W).Anc a e := by
    intro a
    rw [hunion, anc_parents hs, mem_singleton]
    refine or_congr_right (exists_congr fun q => and_congr_right fun hq => ?_)
    obtain ⟨r, hr⟩ := mem_iff.mp (hready q hq)
    simp [hr, (reads.past hr).2]
  have hguard : (p.ancestors.contains e || (parentsOf s).any fun q => !p.ancestors.contains q)
      = false := by
    simpa [hnew] using hready
  obtain ⟨grant, hissue⟩ := branch.issued_some hs
  simp only [provenanceStep, hguard, Bool.false_eq_true, if_false, hrun, hissue]
  simp only [Option.bind_eq_bind, Option.bind_some]
  cases grant with
  | none =>
    refine ⟨{ p with ancestors := p.ancestors.insert e past }, rfl, ?_⟩
    exact provenance_extend reads hs hready hpast rfl (by simp [hissue]) (fun _ => reads.traced)
      fun _ _ => Or.inl
  | some item =>
    obtain ⟨g, grant⟩ := item
    obtain ⟨path, hpath, hunder⟩ := branch.record_path reads hs hready hissue
    have hfresh : p.grants[g]? = none := by
      rw [← Option.not_isSome_iff_eq_none]
      intro hsome
      obtain ⟨d, hd, hd'⟩ := reads.grant_mem.mp (Std.ExtTreeMap.mem_iff_isSome_getElem?.mpr hsome)
      obtain rfl := branch.lawful.issues_event hd' ⟨s, grant, hs, hissue⟩
      exact hnew hd
    refine ⟨⟨p.grants.insert g grant, p.lineage.insert g (path.insert g),
      p.ancestors.insert e past⟩, ?_, ?_⟩
    · have habove : (Provenance.mk p.grants p.lineage (p.ancestors.insert e past)).above grant
          = some path := hpath
      simp [Provenance.record, habove]
    refine provenance_extend reads hs hready hpast rfl ?_ ?_ ?_
    · intro k grant'
      rw [getElem?_insert, hissue]
      by_cases hk : g = k
      · subst hk
        simp [hfresh]
      · simp [hk]
    · intro k
      simp only [mem_map_insert, reads.traced]
    · intro k path' hk
      rw [getElem?_insert] at hk
      split at hk
      case isTrue heq =>
        subst heq
        obtain rfl := Option.some.inj hk
        exact Or.inr hunder
      case isFalse => exact Or.inl hk

/-- A loop over the events that waits for parents settles them all. -/
theorem settle {σ : Type} {step : σ → Hash × Signed → Option σ} {inv : σ → Prop}
    {done : σ → Hash → Prop} (sched : Scheduler W.toList step Prod.fst inv done
      fun s item => ∀ q ∈ parentsOf item.2, done s q)
    (cond : σ → Bool) {s : σ} (hcond : ∀ s, inv s → (cond s = true ↔ ∃ e ∈ W, ¬ done s e))
    (hs : inv s) : ∃ t, loopWhile cond (W.toList.foldlM step) W.size s = some t ∧ inv t ∧
      ∀ e ∈ W, done t e := by
  have hitems : ∀ s, (∃ e ∈ W, ¬ done s e) ↔ ∃ i ∈ W.toList, ¬ done s i.1 := by
    intro s
    constructor
    · rintro ⟨e, he, hnew⟩
      obtain ⟨s, hs⟩ := mem_iff.mp he
      exact ⟨(e, s), Std.ExtTreeMap.mem_toList_iff_getElem?_eq_some.mpr hs, hnew⟩
    · rintro ⟨⟨e, s⟩, hs, hnew⟩
      exact ⟨e, mem_of_getElem? (Std.ExtTreeMap.mem_toList_iff_getElem?_eq_some.mp hs), hnew⟩
  obtain ⟨t, hrun, ht, hall⟩ := sched.settle_all (fun s hs => (hcond s hs).trans (hitems s)) (by
    -- Among the unsettled events, one that precedes in the order has settled parents.
    intro s hs hsome
    obtain ⟨m, ⟨hm, hnew⟩, hmin⟩ := branch.wellFounded.has_min {e | e ∈ W ∧ ¬ done s e}
      ((hitems s).mpr hsome)
    obtain ⟨t, ht⟩ := mem_iff.mp hm
    refine ⟨(m, t), Std.ExtTreeMap.mem_toList_iff_getElem?_eq_some.mpr ht, hnew, fun q hq => ?_⟩
    by_contra hq'
    exact hmin q ⟨branch.closed.parent ht hq, hq'⟩ ⟨t, ht, hq⟩) hs Std.ExtTreeMap.length_toList.le
  refine ⟨t, hrun, ht, fun e he => ?_⟩
  obtain ⟨s, hs⟩ := mem_iff.mp he
  exact hall (e, s) (Std.ExtTreeMap.mem_toList_iff_getElem?_eq_some.mpr hs)

theorem provenance_scheduler : Scheduler W.toList (provenanceStep cr) Prod.fst
    (Provenance.Reads cr W) (fun p k => k ∈ p.ancestors)
    (fun p item => ∀ q ∈ parentsOf item.2, q ∈ p.ancestors) where
  skip := by
    rintro p ⟨e, s⟩ _ _ hidle
    have hguard : (p.ancestors.contains e || (parentsOf s).any fun q => !p.ancestors.contains q)
        = true := by
      rcases hidle with h | h
      · simp [contains_iff.mpr h]
      · simpa using Or.inr h
    simp [provenanceStep, hguard]
  work := by
    rintro p ⟨e, s⟩ hmem reads hnew hready
    exact branch.provenance_work reads (Std.ExtTreeMap.mem_toList_iff_getElem?_eq_some.mp hmem)
      hnew hready
  mono := fun _ _ _ _ _ _ hgrow hready q hq => hgrow q (hready q hq)

/-- The first loop of `derive` settles every event. -/
theorem provenance_spec : ∃ p, provenance cr W = some p ∧ p.Complete cr W := by
  obtain ⟨p, hrun, reads, hall⟩ := branch.settle branch.provenance_scheduler
    (fun s => s.ancestors.size < W.size) (s := {}) (by
      intro p reads
      rw [decide_eq_true_eq, size_lt_iff fun k => reads.known_mem]) (by constructor <;> simp)
  exact ⟨p, hrun, reads, hall⟩

end Branch

end Clockchain.V1
