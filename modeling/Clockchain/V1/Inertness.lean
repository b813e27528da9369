import Clockchain.V1.Recovery
import Clockchain.V1.Transfer

/-!
# Dead authority

What arrives signed through grants that the fold has taken away, or through grants issued
below these, leaves the subjects the fold knew as they were: their frontiers and states,
their grants, their effective revokes and the effect of each of their events.
-/

namespace Clockchain.V1
open Relation Maps Programs
set_option autoImplicit false

/-! ## Two folds -/

theorem within_union {C X : Candidates} (fresh : ∀ x ∈ X, x ∉ C) : Within C (C ∪ X) := by
  refine ⟨fun {e t} ht => ?_⟩
  have hnone : X[e]? = none := Std.ExtTreeMap.getElem?_eq_none fun hX =>
    fresh e hX (mem_of_getElem? ht)
  rw [getElem?_union_eq, hnone]
  exact ht

/-- The grant `g` was taken away in the fold `A`, or an event of `X` issues it, or the fold `A'`
does not know it. -/
def Powerless (cr : Crypto) (A A' : Authority) (X : Candidates) (g : Hash) : Prop :=
  (g ∈ A.tombstones ∨ g ∈ A.canceled) ∨
    (∃ e t grant, X[e]? = some t ∧ issued cr e t.envelope = some (some (g, grant))) ∨ g ∉ A'.grants

instance (cr : Crypto) (A A' : Authority) (X : Candidates) (g : Hash) :
    Decidable (Powerless cr A A' X g) :=
  decidable_of_iff ((g ∈ A.tombstones ∨ g ∈ A.canceled) ∨ (X.toList.any fun item =>
    ((issued cr item.1 item.2.envelope).join.map Prod.fst) = some g) = true ∨ g ∉ A'.grants) (by
  simp [Powerless, Option.join_eq_some_iff])

section
variable {cr : Crypto} {C C' : Candidates} {out out' : BTreeMap Status} {s s' : Subjects}
variable (verdicts : Verdicts cr C out s) (verdicts' : Verdicts cr C' out' s')
variable (closed : Closed C) (within : Within C C')
include verdicts verdicts' within

theorem valid_within : Within (validOf C out) (validOf C' out') :=
  ⟨fun h => valid_stays verdicts verdicts' within h⟩

theorem valid_embeds : History.Embeds (history cr (validOf C out)) (history cr (validOf C' out'))
    id id :=
  (valid_within verdicts verdicts' within).embeds verdicts'.branch.free_within

include closed

theorem fresh_iff {n : Hash} : History.Embeds.Fresh (history cr (validOf C out))
    (history cr (validOf C' out')) id n ↔ n ∈ validOf C' out' ∧ n ∉ C := by
  refine and_congr_right fun hn => not_congr ⟨?_, fun hC => ?_⟩
  · rintro ⟨e, he, rfl⟩
    exact verdicts.branch.within.mem he
  · obtain ⟨t, ht⟩ := mem_iff.mp hn
    exact ⟨n, mem_of_getElem? (valid_back verdicts verdicts' closed within hC ht), rfl⟩

omit verdicts closed within in
/-- An event belongs to the subject whose event issued the grant it signs through. -/
theorem subject_signer {d n : Hash} {t u : Signed} (hn : (validOf C' out')[n]? = some t)
    (hd : (validOf C' out')[d]? = some u) (h : (history cr (validOf C' out')).issues d
      ((history cr (validOf C' out')).signer n)) : subjectOf d u = subjectOf n t := by
  have branch := verdicts'.branch
  obtain ⟨d', hd', hanc⟩ := branch.lawful.signer_issued (mem_of_getElem? hn)
  obtain rfl := branch.lawful.issues_event h hd'
  exact (branch.subject_anc hn hd hanc).1

variable {A A' : Authority} (reads : A.Reads cr (validOf C out))
variable (reads' : A'.Reads cr (validOf C' out'))
variable (dead : ∀ n t, (validOf C' out')[n]? = some t → n ∉ C → signer cr n t ∉ A.active)
variable (quiet : ∀ n, n ∉ C → ¬ (history cr (validOf C' out')).Relinquishes n)
include reads dead quiet

/-- The arrived events of the subjects of `C` are inert. -/
theorem arrived_inert : History.Embeds.Inert (history cr (validOf C out))
    (history cr (validOf C' out')) id id A.revokes
    {n | ∃ g ∈ C, n ∈ actsOf (validOf C' out') g} := by
  have branch := verdicts.branch
  have branch' := verdicts'.branch
  have hwithin := valid_within verdicts verdicts' within
  refine ⟨fun {n} hn => quiet n ((fresh_iff verdicts verdicts' closed within).mp hn).2,
    fun {n d g} hn hd hsigner => ?_, fun {n d} hn hJ hd hissues => ?_⟩
  · obtain ⟨hmem, hnew⟩ := (fresh_iff verdicts verdicts' closed within).mp hn
    obtain ⟨t, ht⟩ := mem_iff.mp hmem
    obtain ⟨u, grant, hu, hissued⟩ := hd
    have hissues := hwithin.issues ⟨u, grant, hu, hissued⟩
    refine ⟨⟨subjectOf d u, ?_, t, ht, ?_⟩, ?_⟩
    · obtain ⟨genesis, hgenesis, -, -⟩ := branch.genesis_exists hu
      exact branch.within.mem (mem_of_getElem? hgenesis)
    · refine (subject_signer verdicts' ht (hwithin.sub hu) ?_).symm
      rw [hsigner]
      exact hissues
    · have hlost : g ∉ A.active := by
        have := dead n t ht hnew
        rwa [← history_signer ht, hsigner] at this
      rw [reads.active, not_and] at hlost
      have hone := hlost ⟨d, u, grant, hu, hissued⟩
      rw [not_and_or, not_not, not_not] at hone
      rcases hone with ⟨r, hr, hcut⟩ | ⟨r, hr, hcover⟩
      · exact ⟨r, hr, Or.inr hcut⟩
      · exact ⟨r, hr, Or.inl hcover⟩
  · obtain ⟨hmemd, hnewd⟩ := (fresh_iff verdicts verdicts' closed within).mp hd
    obtain ⟨u, hu⟩ := mem_iff.mp hmemd
    obtain ⟨g, hg, t, ht, hsubject⟩ := hJ
    have hsame := (subject_signer verdicts' ht hu hissues).trans hsubject
    refine ⟨⟨g, hg, u, hu, hsame⟩, ?_⟩
    obtain ⟨u', grant, hu', hissued⟩ := hissues
    obtain rfl := Option.some.inj (hu.symm.trans hu')
    rcases issued_kind hissued with ⟨hgenesis, -, -, -, -⟩ | ⟨_, i, _, -, -, hissuer, -, -⟩
    · rw [branch'.genesis_subject hu hgenesis] at hsame
      exact absurd (hsame ▸ hg) hnewd
    · have hi : (history cr (validOf C' out')).issuer i
          ((history cr (validOf C' out')).signer n) := ⟨d, u, grant, hu, hissued, hissuer⟩
      rwa [branch'.lawful.issuer_signer hi ⟨u, grant, hu, hissued⟩]

end

section
variable {cr : Crypto} {C C' : Candidates} {out out' : BTreeMap Status} {s s' : Subjects}
variable (verdicts : Verdicts cr C out s) (verdicts' : Verdicts cr C' out' s')
variable (closed : Closed C) (within : Within C C')
variable {A A' : Authority} (reads : A.Reads cr (validOf C out))
variable (reads' : A'.Reads cr (validOf C' out'))
variable (inert : History.Embeds.Inert (history cr (validOf C out)) (history cr (validOf C' out'))
  id id A.revokes {n | ∃ g ∈ C, n ∈ actsOf (validOf C' out') g})
include verdicts verdicts' closed within reads reads' inert

omit closed in
theorem folds_agree : History.Embeds.Agrees (history cr (validOf C out))
    (history cr (validOf C' out')) id id A.revokes A'.revokes :=
  (valid_embeds verdicts verdicts' within).inert_agrees verdicts.branch.lawful
    verdicts'.branch.lawful reads.effective reads'.effective inert

theorem arrived_ineffective {n : Hash} {t : Signed} (hn : (validOf C' out')[n]? = some t)
    (hnew : n ∉ C) (hsubject : subjectOf n t ∈ C) :
    ¬ (history cr (validOf C' out')).Eligible A'.revokes n ∧ n ∉ A'.revokes :=
  (valid_embeds verdicts verdicts' within).inert_ineffective verdicts.branch.lawful
    verdicts'.branch.lawful reads.effective reads'.effective inert
    ((fresh_iff verdicts verdicts' closed within).mpr ⟨mem_of_getElem? hn, hnew⟩)
    ⟨_, hsubject, t, hn, rfl⟩

/-! ## Revokes and grants -/

theorem revokes_same {r : Hash} {t : Signed} (ht : C'[r]? = some t) (hsubject : subjectOf r t ∈ C) :
    r ∈ A'.effectiveRevokes ↔ r ∈ A.effectiveRevokes := by
  have hvalid : r ∈ A'.effectiveRevokes → (validOf C' out')[r]? = some t := by
    intro hr
    have hmem := (reads'.effective.revokes hr).mem verdicts'.branch.lawful
    exact verdicts'.branch.within.get hmem ht
  by_cases hC : r ∈ C
  · have agrees := folds_agree verdicts verdicts' within reads reads' inert
    constructor
    · intro hr
      exact (agrees.mem (mem_of_getElem?
        (valid_back verdicts verdicts' closed within hC (hvalid hr)))).mp hr
    · intro hr
      exact (agrees.mem ((reads.effective.revokes hr).mem verdicts.branch.lawful)).mpr hr
  · constructor
    · intro hr
      exact absurd hr (arrived_ineffective verdicts verdicts' closed within reads reads' inert
        (hvalid hr) hC hsubject).2
    · intro hr
      exact absurd (verdicts.branch.within.mem
        ((reads.effective.revokes hr).mem verdicts.branch.lawful)) hC

omit closed in
theorem lost_same {g : Hash} (hg : g ∈ A.grants) : (g ∈ A'.tombstones ↔ g ∈ A.tombstones) ∧
    (g ∈ A'.canceled ↔ g ∈ A.canceled) ∧ (g ∈ A'.active ↔ g ∈ A.active) := by
  have emb := valid_embeds verdicts verdicts' within
  have agrees := folds_agree verdicts verdicts' within reads reads' inert
  obtain ⟨d, hd⟩ := reads.grant_mem.mp hg
  have hd' := (valid_within verdicts verdicts' within).issues hd
  have hcovers : (∃ r ∈ A'.revokes, (history cr (validOf C' out')).Covers r g) ↔
      ∃ r ∈ A.revokes, (history cr (validOf C out)).Covers r g :=
    emb.exists_covers_iff verdicts.branch.lawful verdicts'.branch.lawful reads.effective agrees hd
  have hcuts : (∃ r ∈ A'.revokes, (history cr (validOf C' out')).Cuts r g) ↔
      ∃ r ∈ A.revokes, (history cr (validOf C out)).Cuts r g :=
    emb.exists_cuts_iff verdicts.branch.lawful verdicts'.branch.lawful reads.effective agrees hd
  have hissued : (∃ d, (history cr (validOf C' out')).issues d g) ↔
      ∃ d, (history cr (validOf C out)).issues d g := iff_of_true ⟨d, hd'⟩ ⟨d, hd⟩
  rw [reads'.tombstones, reads.tombstones, reads'.canceled, reads.canceled, reads'.active,
    reads.active, hcovers, hcuts, hissued]
  exact ⟨Iff.rfl, Iff.rfl, Iff.rfl⟩

omit closed inert in
theorem grants_kept {g : Hash} {grant : Grant} (hg : A.grants[g]? = some grant) :
    A'.grants[g]? = some grant := by
  obtain ⟨e, t, ht, hissued⟩ := reads.grants.mp hg
  exact reads'.grants.mpr ⟨e, t, (valid_within verdicts verdicts' within).sub ht, hissued⟩

/-- No arrived grant of a subject of `C` is active. -/
theorem active_known {g : Hash} {grant : Grant} (hactive : g ∈ A'.active)
    (hgrant : A'.grants[g]? = some grant) (hsubject : grant.subject ∈ C) :
    A.grants[g]? = some grant := by
  have branch' := verdicts'.branch
  have emb := valid_embeds verdicts verdicts' within
  have agrees := folds_agree verdicts verdicts' within reads reads' inert
  obtain ⟨d, u, hu, hissued⟩ := reads'.grants.mp hgrant
  by_cases hC : d ∈ C
  · exact reads.grants.mpr ⟨d, u, valid_back verdicts verdicts' closed within hC hu, hissued⟩
  · exfalso
    rcases issued_kind hissued with ⟨-, -, -, -, hself⟩ | ⟨_, i, _, -, -, hissuer, -, hnamed⟩
    · exact hC (hself ▸ hsubject)
    · have hd : (history cr (validOf C' out')).issues d g := ⟨u, grant, hu, hissued⟩
      have hi : (history cr (validOf C' out')).issuer i g := ⟨d, u, grant, hu, hissued, hissuer⟩
      have hown : subjectOf d u = grant.subject := by
        rw [subjectOf, hnamed, Option.getD_some]
      obtain ⟨r, hr, hsilences⟩ := emb.fresh_silenced verdicts.branch.lawful branch'.lawful
        reads.effective inert ((fresh_iff verdicts verdicts' closed within).mpr
          ⟨mem_of_getElem? hu, hC⟩) ⟨grant.subject, hsubject, u, hu, hown⟩
      have hr' := (agrees.mem ((reads.effective.revokes hr).mem verdicts.branch.lawful)).mpr hr
      refine ((reads'.active g).mp hactive).2.1 ⟨r, hr', ?_⟩
      rw [History.Silences, History.Overrides, branch'.lawful.issuer_signer hi hd] at hsilences
      exact (branch'.lawful.cuts_iff hi hd).mpr hsilences

/-! ## Subjects -/

omit reads reads' inert in
theorem acts_same {g e : Hash} : (∃ x ∈ actsOf (validOf C out) g, id x = e) ↔
    e ∈ actsOf (validOf C' out') g ∧ e ∈ C := by
  constructor
  · rintro ⟨x, ⟨t, ht, hsubject⟩, rfl⟩
    exact ⟨⟨t, valid_stays verdicts verdicts' within ht, hsubject⟩,
      verdicts.branch.within.mem (mem_of_getElem? ht)⟩
  · rintro ⟨⟨t, ht, hsubject⟩, hC⟩
    exact ⟨e, ⟨t, valid_back verdicts verdicts' closed within hC ht, hsubject⟩, rfl⟩

theorem frontier_same {g : Hash} (hg : g ∈ C) :
    (history cr (validOf C' out')).Frontier A'.revokes (actsOf (validOf C' out') g) =
      (history cr (validOf C out)).Frontier A.revokes (actsOf (validOf C out) g) := by
  have hacts : ∀ e ∈ actsOf (validOf C out) g, (history cr (validOf C out)).mem e ∧
      id e ∈ actsOf (validOf C' out') g := by
    intro e he
    obtain ⟨t, ht, -⟩ := id he
    exact ⟨mem_of_getElem? ht, ((acts_same verdicts verdicts' closed within).mp ⟨e, he, rfl⟩).1⟩
  have hrest : ∀ x ∈ actsOf (validOf C' out') g, (∃ e ∈ actsOf (validOf C out) g, id e = x) ∨
      ¬ (history cr (validOf C' out')).Eligible A'.revokes x ∧ x ∉ A'.revokes := by
    intro x hx
    by_cases hC : x ∈ C
    · exact Or.inl ((acts_same verdicts verdicts' closed within).mpr ⟨hx, hC⟩)
    · obtain ⟨t, ht, rfl⟩ := hx
      exact Or.inr
        (arrived_ineffective verdicts verdicts' closed within reads reads' inert ht hC hg)
  have hsame := (valid_embeds verdicts verdicts' within).frontier_eq verdicts.branch.lawful
    verdicts'.branch.lawful reads.effective
    (folds_agree verdicts verdicts' within reads reads' inert) hacts hrest
  rwa [Set.image_id] at hsame

theorem reading_same {r : SubjectReading} (hr : r.subject ∈ C) :
    r.Reads cr (validOf C' out') A' ↔ r.Reads cr (validOf C out) A := by
  have hfrontier := frontier_same verdicts verdicts' closed within reads reads' inert hr
  have halive : (∃ g ∈ A'.active, ∃ grant : Grant, A'.grants[g]? = some grant ∧
      grant.subject = r.subject) ↔ ∃ g ∈ A.active, ∃ grant : Grant, A.grants[g]? = some grant ∧
      grant.subject = r.subject := by
    constructor
    · rintro ⟨g, hactive, grant, hgrant, hsubject⟩
      have hknown := active_known verdicts verdicts' closed within reads reads' inert hactive hgrant
        (hsubject ▸ hr)
      exact ⟨g, (lost_same verdicts verdicts' within reads reads' inert
        (mem_of_getElem? hknown)).2.2.mp hactive, grant, hknown, hsubject⟩
    · rintro ⟨g, hactive, grant, hgrant, hsubject⟩
      exact ⟨g, (lost_same verdicts verdicts' within reads reads' inert
        (mem_of_getElem? hgrant)).2.2.mpr hactive, grant,
        grants_kept verdicts verdicts' within reads reads' hgrant, hsubject⟩
  constructor
  · intro h
    exact ⟨fun e => hfrontier ▸ h.frontier e, hfrontier ▸ h.state, h.frozen.trans halive⟩
  · intro h
    exact ⟨fun e => hfrontier ▸ h.frontier e, hfrontier ▸ h.state, h.frozen.trans halive.symm⟩

omit verdicts verdicts' closed within reads reads' inert in
/-- A subject has one reading. -/
theorem reading_unique {W : Candidates} {r r' : SubjectReading} (h : r.Reads cr W A)
    (h' : r'.Reads cr W A) (hsubject : r.subject = r'.subject) : r = r' := by
  obtain ⟨subject, frontier, state, frozen⟩ := r
  obtain ⟨subject', frontier', state', frozen'⟩ := r'
  obtain rfl : subject = subject' := hsubject
  have hfrontier : frontier = frontier' :=
    Std.ExtTreeSet.ext_mem fun {e} => (h.frontier e).trans (h'.frontier e).symm
  have hstate : state = state' := h.state.trans h'.state.symm
  have hfrozen : frozen = frozen' := by
    have hiff : frozen = false ↔ frozen' = false := h.frozen.trans h'.frozen.symm
    rwa [← Bool.not_eq_true, ← Bool.not_eq_true, not_iff_not, ← Bool.eq_iff_iff] at hiff
  rw [hfrontier, hstate, hfrozen]

theorem subjects_same {p p' : Projection} (projected : Projected cr C out A p)
    (projected' : Projected cr C' out' A' p') {r : SubjectReading} (hr : r.subject ∈ C) :
    r ∈ p'.subjects ↔ r ∈ p.subjects := by
  have hgenesis : r.subject ∈ genesesOf (validOf C' out') ↔
      r.subject ∈ genesesOf (validOf C out) := by
    rw [genesesOf_mem, genesesOf_mem]
    constructor
    · rintro ⟨t, ht, hkind⟩
      exact ⟨t, valid_back verdicts verdicts' closed within hr ht, hkind⟩
    · rintro ⟨t, ht, hkind⟩
      exact ⟨t, valid_stays verdicts verdicts' within ht, hkind⟩
  have hsame := fun {x : SubjectReading} (hx : x.subject ∈ C) =>
    reading_same verdicts verdicts' closed within reads reads' inert hx
  rw [← projected.named, ← projected'.named, List.mem_map, List.mem_map] at hgenesis
  constructor
  · intro hmem
    obtain ⟨x, hx, hsubject⟩ := hgenesis.mp ⟨r, hmem, rfl⟩
    have hread := (hsame hr).mp (projected'.subjects r hmem)
    rwa [reading_unique hread (projected.subjects x hx) hsubject.symm]
  · intro hmem
    obtain ⟨x, hx, hsubject⟩ := hgenesis.mpr ⟨r, hmem, rfl⟩
    have hread := (hsame hr).mpr (projected.subjects r hmem)
    rwa [reading_unique hread (projected'.subjects x hx) hsubject.symm]

/-! ## Effects -/

omit verdicts verdicts' closed within reads reads' inert in
theorem effect_eq {a b : Effect} (hreason : a.reason = b.reason)
    (hcontrols : a.controllingRevokes = b.controllingRevokes) : a = b := by
  cases a
  cases b
  cases hreason
  cases hcontrols
  rfl

theorem effects_same {e : Hash} (he : e ∈ C) : A'.effects[e]? = A.effects[e]? := by
  have hwithin := valid_within verdicts verdicts' within
  obtain ⟨start, htaint, owns⟩ := reads.tainted
  obtain ⟨start', htaint', owns'⟩ := reads'.tainted
  by_cases hvalid : e ∈ validOf C out
  · have hstart : SameEffects (validOf C out) start start' := by
      intro a ha
      obtain ⟨effect, heffect⟩ := mem_iff.mp ((owns.mem a).mpr ha)
      obtain ⟨effect', heffect'⟩ := mem_iff.mp ((owns'.mem a).mpr (hwithin.mem ha))
      have own := owns.own heffect
      have own' := owns'.own heffect'
      have emb := valid_embeds verdicts verdicts' within
      have agrees := folds_agree verdicts verdicts' within reads reads' inert
      have hreason : effect'.reason = effect.reason := by
        rw [own'.reason, own.reason]
        exact ownReason_eq emb verdicts.branch.lawful verdicts'.branch.lawful reads.effective
          agrees ha
      have hcontrollers := controllers_eq emb verdicts.branch.lawful verdicts'.branch.lawful
        reads.effective agrees ha
      rw [Set.image_id, id] at hcontrollers
      have hcontrols : effect'.controllingRevokes = effect.controllingRevokes :=
        Std.ExtTreeSet.ext_mem fun {q} => by rw [own'.controls, own.controls, hcontrollers]
      rw [heffect, heffect']
      exact congrArg some (effect_eq hreason hcontrols)
    exact taint_same verdicts.branch.closed hwithin hstart htaint htaint' e hvalid
  · have hnot : e ∉ validOf C' out' := by
      intro hmem
      obtain ⟨t, ht⟩ := mem_iff.mp hmem
      exact hvalid (mem_of_getElem? (valid_back verdicts verdicts' closed within he ht))
    rw [Std.ExtTreeMap.getElem?_eq_none (mt (reads.effects e).mp hvalid),
      Std.ExtTreeMap.getElem?_eq_none (mt (reads'.effects e).mp hnot)]

end

/-! ## Arrivals through dead grants -/

/-- What `p'` says of the subjects of `C` is what `p` says of them. -/
structure Unmoved (C C' : Candidates) (p p' : Projection) : Prop where
  subjects : ∀ r : SubjectReading, r.subject ∈ C → (r ∈ p'.subjects ↔ r ∈ p.subjects)
  grants : ∀ g ∈ p.authority.grants,
    (g ∈ p'.authority.tombstones ↔ g ∈ p.authority.tombstones) ∧
    (g ∈ p'.authority.canceled ↔ g ∈ p.authority.canceled) ∧
    (g ∈ p'.authority.active ↔ g ∈ p.authority.active)
  revokes : ∀ (r : Hash) (t : Signed), C'[r]? = some t → subjectOf r t ∈ C →
    (r ∈ p'.authority.effectiveRevokes ↔ r ∈ p.authority.effectiveRevokes)
  effects : ∀ e ∈ C, p'.authority.effects[e]? = p.authority.effects[e]?

/-- Every active grant of a subject of `C` in `p'` is a grant of `p`. -/
def Unjoined (C : Candidates) (p p' : Projection) : Prop :=
  ∀ (g : Hash) (grant : Grant), grant.subject ∈ C → p'.authority.grants[g]? = some grant →
    g ∈ p'.authority.active → p.authority.grants[g]? = some grant ∧ g ∈ p.authority.active

section
variable {cr : Crypto} {C X : Candidates} (closed : Closed C) (fresh : ∀ x ∈ X, x ∉ C)
variable (free : CollisionFree cr (C ∪ X)) {p p' : Projection}
variable (hp : project cr C = some p) (hp' : project cr (C ∪ X) = some p')
include fresh free hp

/-- What the fold of `C` does not hold as active. -/
theorem inactive {g : Hash} (h : (g ∈ p.authority.tombstones ∨ g ∈ p.authority.canceled) ∨
    (∃ e t grant, X[e]? = some t ∧ issued cr e t.envelope = some (some (g, grant))) ∨
    g ∉ p.authority.grants) : g ∉ p.authority.active := by
  have within : Within C (C ∪ X) := within_union fresh
  obtain ⟨out, s, A, p₀, hout, verdicts, -, reads, hp₀, projected⟩ :=
    project_spec (free.within within)
  obtain rfl := Option.some.inj (hp.symm.trans hp₀)
  rw [projected.authority] at h ⊢
  intro hactive
  obtain ⟨hissued, hcuts, hcovers⟩ := (reads.active _).mp hactive
  rcases h with (htomb | hcancel) | ⟨e, u, grant, hu, hgrant⟩ | hunknown
  · exact hcovers ((reads.tombstones _).mp htomb).2
  · exact hcuts ((reads.canceled _).mp hcancel)
  · -- No event of `C` issues what an arrived event issues.
    obtain ⟨d, hd⟩ := hissued
    have hdC := within.issues (verdicts.branch.within.issues hd)
    have huC : (C ∪ X)[e]? = some u := by
      rw [getElem?_union_eq, hu]
      rfl
    obtain rfl := free.issues_event hdC ⟨u, grant, huC, hgrant⟩
    obtain ⟨v, _, hv, -⟩ := hd
    exact fresh d (mem_of_getElem? hu) (verdicts.branch.within.mem (mem_of_getElem? hv))
  · exact hunknown (reads.grant_mem.mpr hissued)

include hp'

theorem grants_within {g : Hash} (hg : g ∈ p.authority.grants) : g ∈ p'.authority.grants := by
  have within : Within C (C ∪ X) := within_union fresh
  obtain ⟨out, s, A, p₀, hout, verdicts, -, reads, hp₀, projected⟩ :=
    project_spec (free.within within)
  obtain ⟨out', s', A', p₁, hout', verdicts', -, reads', hp₁, projected'⟩ := project_spec free
  obtain rfl := Option.some.inj (hp.symm.trans hp₀)
  obtain rfl := Option.some.inj (hp'.symm.trans hp₁)
  rw [projected.authority] at hg
  rw [projected'.authority]
  obtain ⟨d, hd⟩ := reads.grant_mem.mp hg
  exact reads'.grant_mem.mpr ⟨d, (valid_within verdicts verdicts' within).issues hd⟩

include closed

theorem inactive_inert (dead : ∀ (x : Hash) (t : Signed), X[x]? = some t → isSubject t = true →
      signer cr x t ∉ p.authority.active)
    (quiet : ∀ g ∈ C ∪ X, ∀ x ∈ X, ¬ RelinquishesRoot cr X g x) :
    Unmoved C (C ∪ X) p p' ∧ Unjoined C p p' := by
  have within : Within C (C ∪ X) := within_union fresh
  obtain ⟨out, s, A, p₀, hout, verdicts, -, reads, hp₀, projected⟩ :=
    project_spec (free.within within)
  obtain ⟨out', s', A', p₁, hout', verdicts', -, reads', hp₁, projected'⟩ := project_spec free
  obtain rfl := Option.some.inj (hp.symm.trans hp₀)
  obtain rfl := Option.some.inj (hp'.symm.trans hp₁)
  rw [projected.authority] at dead
  have branch' := verdicts'.branch
  have harrived : ∀ (n : Hash) (t : Signed), (validOf (C ∪ X) out')[n]? = some t → n ∉ C →
      X[n]? = some t := by
    intro n t ht hnew
    have hget := branch'.within.sub ht
    rw [getElem?_union_eq, Option.or_eq_some_iff] at hget
    exact hget.resolve_right fun h => hnew (mem_of_getElem? h.2)
  have hdead : ∀ n t, (validOf (C ∪ X) out')[n]? = some t → n ∉ C → signer cr n t ∉ A.active :=
    fun n t ht hnew => dead n t (harrived n t ht hnew) (branch'.law ht).subject
  have hquiet : ∀ n, n ∉ C → ¬ (history cr (validOf (C ∪ X) out')).Relinquishes n := by
    rintro n hnew hrel
    obtain ⟨c, hrevoke, hroot⟩ := id hrel
    have hmem := branch'.lawful.revoke_mem hrevoke
    obtain ⟨t, ht⟩ := mem_iff.mp hmem
    obtain ⟨d, hd, -⟩ := branch'.lawful.signer_issued hmem
    obtain ⟨u, grant, hu, hgrant⟩ := id hd
    rcases issued_kind hgrant with ⟨-, hself, -⟩ | ⟨_, i, _, -, -, hissuer, -⟩
    · obtain ⟨v, c', hv, hr, hsigner⟩ :=
        (branch'.relinquishes_iff hu).mp ⟨hrel, hself⟩
      obtain rfl := Option.some.inj (ht.symm.trans hv)
      have hX := harrived n t ht hnew
      exact quiet d (branch'.within.mem (mem_of_getElem? hu)) n (mem_of_getElem? hX)
        ⟨t, c', hX, hr, hsigner⟩
    · exact hroot i ⟨d, u, grant, hu, hgrant, hissuer⟩
  have inert := arrived_inert verdicts verdicts' closed within reads hdead hquiet
  have hlost := fun {g : Hash} (hg : g ∈ A.grants) =>
    lost_same verdicts verdicts' within reads reads' inert hg
  refine ⟨⟨fun r hr => ?_, fun g hg => ?_, fun r t ht hr => ?_, fun e he => ?_⟩,
    fun g grant hsubject hgrant hactive => ?_⟩
  · exact subjects_same verdicts verdicts' closed within reads reads' inert projected projected' hr
  · rw [projected.authority] at hg ⊢
    rw [projected'.authority]
    exact hlost hg
  · rw [projected.authority, projected'.authority]
    exact revokes_same verdicts verdicts' closed within reads reads' inert ht hr
  · rw [projected.authority, projected'.authority]
    exact effects_same verdicts verdicts' closed within reads reads' inert he
  · rw [projected'.authority] at hgrant hactive
    rw [projected.authority]
    have hknown :=
      active_known verdicts verdicts' closed within reads reads' inert hactive hgrant hsubject
    exact ⟨hknown, (hlost (mem_of_getElem? hknown)).2.2.mp hactive⟩

end

/-- Events beside a causally closed set, signed through grants without power and no root
self-revocations, leave the subjects of the set unmoved. -/
theorem dead_authority_inert (cr : Crypto) (C X : Candidates) (closed : Closed C)
    (fresh : ∀ x ∈ X, x ∉ C) (free : CollisionFree cr (C ∪ X)) {p p' : Projection}
    (hp : project cr C = some p) (hp' : project cr (C ∪ X) = some p')
    (dead : ∀ (x : Hash) (t : Signed), X[x]? = some t → isSubject t = true →
      Powerless cr p.authority p'.authority X (signer cr x t))
    (quiet : ∀ g ∈ C ∪ X, ∀ x ∈ X, ¬ RelinquishesRoot cr X g x) : Unmoved C (C ∪ X) p p' := by
  refine (inactive_inert closed fresh free hp hp' (fun x t hx hs => ?_) quiet).1
  refine inactive fresh free hp ?_
  rcases dead x t hx hs with hlost | hissued | hunknown
  · exact Or.inl hlost
  · exact Or.inr (Or.inl hissued)
  · exact Or.inr (Or.inr fun hg => hunknown (grants_within fresh free hp hp' hg))

/-- The holder of a revoked grant delegates on its old branch, and the grantee corrects. -/
def arrivals : Candidates := Sample.candidates
  [(5, Sample.delegate Sample.bob 2 3 Sample.carol), (6, Sample.correction Sample.carol 5 5 8 9)]

theorem arrivals_beside : Closed overridden ∧ (∀ x ∈ arrivals, x ∉ overridden) ∧
    (∀ g ∈ overridden ∪ arrivals, ∀ x ∈ arrivals,
      ¬ RelinquishesRoot Sample.crypto arrivals g x) ∧
    ∃ p p', project Sample.crypto overridden = some p ∧
      project Sample.crypto (overridden ∪ arrivals) = some p' ∧
      ∀ x t, arrivals[x]? = some t →
        Powerless Sample.crypto p.authority p'.authority arrivals (signer Sample.crypto x t) := by
  have h : (do
    let p ← project Sample.crypto overridden
    let p' ← project Sample.crypto (overridden ∪ arrivals)
    return (arrivals.toList.all fun item => decide (Powerless Sample.crypto p.authority p'.authority
        arrivals (signer Sample.crypto item.1 item.2)) && !overridden.contains item.1 &&
        (overridden ∪ arrivals).toList.all fun g =>
          !decide (RelinquishesRoot Sample.crypto arrivals g.1 item.1)) &&
      overridden.toList.all fun item => (parentsOf item.2).all overridden.contains) =
        some true := by
    decide +kernel
  obtain ⟨p, hp, h⟩ := Option.bind_eq_some_iff.mp h
  obtain ⟨p', hp', h⟩ := Option.bind_eq_some_iff.mp h
  simp only [Option.pure_def, Option.some.injEq, Bool.and_eq_true, decide_eq_true_eq,
    List.all_eq_true, Bool.not_eq_true', decide_eq_false_iff_not] at h
  obtain ⟨harrivals, hclosed⟩ := h
  have hget : ∀ {K : Candidates} {e : Hash} {t : Signed}, K[e]? = some t → (e, t) ∈ K.toList :=
    Std.ExtTreeMap.mem_toList_iff_getElem?_eq_some.mpr
  refine ⟨⟨?_⟩, ?_, ?_, p, p', hp, hp', ?_⟩
  · intro e q t ht hq
    exact contains_iff.mp (hclosed (e, t) (hget ht) q hq)
  · intro x hx
    obtain ⟨t, ht⟩ := mem_iff.mp hx
    exact contains_eq_false.mp (harrivals (x, t) (hget ht)).1.2
  · intro g hg x hx
    obtain ⟨u, hu⟩ := mem_iff.mp hg
    obtain ⟨t, ht⟩ := mem_iff.mp hx
    exact (harrivals (x, t) (hget ht)).2 (g, u) (hget hu)
  · intro x t ht
    exact (harrivals (x, t) (hget ht)).1.1

theorem dead_authority_inert_arrivals : ∃ p p', project Sample.crypto overridden = some p ∧
    project Sample.crypto (overridden ∪ arrivals) = some p' ∧
    Unmoved overridden (overridden ∪ arrivals) p p' := by
  obtain ⟨closed, fresh, quiet, p, p', hp, hp', dead⟩ := arrivals_beside
  exact ⟨p, p', hp, hp', dead_authority_inert Sample.crypto overridden arrivals closed fresh
    (by decide +kernel) hp hp' (fun x t hx _ => dead x t hx) quiet⟩

/-- Acts through grants that the fold of `C` has lost or never had change nothing of what it says,
and win no grant. -/
theorem lost_grants_inert (cr : Crypto) (C X : Candidates) (closed : Closed C)
    (fresh : ∀ x ∈ X, x ∉ C) (free : CollisionFree cr (C ∪ X)) {p p' : Projection}
    (hp : project cr C = some p) (hp' : project cr (C ∪ X) = some p')
    (dead : ∀ (x : Hash) (t : Signed), X[x]? = some t → isSubject t = true →
      (signer cr x t ∈ p.authority.tombstones ∨ signer cr x t ∈ p.authority.canceled) ∨
      (∃ e u grant, X[e]? = some u ∧
        issued cr e u.envelope = some (some (signer cr x t, grant))) ∨
      signer cr x t ∉ p.authority.grants)
    (quiet : ∀ g ∈ C ∪ X, ∀ x ∈ X, ¬ RelinquishesRoot cr X g x) :
    Unmoved C (C ∪ X) p p' ∧ Unjoined C p p' :=
  inactive_inert closed fresh free hp hp'
    (fun x t hx hs => inactive fresh free hp (dead x t hx hs)) quiet

theorem lost_grants_inert_arrivals : ∃ p p', project Sample.crypto overridden = some p ∧
    project Sample.crypto (overridden ∪ arrivals) = some p' ∧
    Unmoved overridden (overridden ∪ arrivals) p p' ∧ Unjoined overridden p p' := by
  obtain ⟨closed, fresh, quiet, p, p', hp, hp', dead⟩ := arrivals_beside
  have free : CollisionFree Sample.crypto (overridden ∪ arrivals) := by decide +kernel
  refine ⟨p, p', hp, hp', lost_grants_inert Sample.crypto overridden arrivals closed fresh free
    hp hp' (fun x t hx _ => ?_) quiet⟩
  rcases dead x t hx with hlost | hissued | hunknown
  · exact Or.inl hlost
  · exact Or.inr (Or.inl hissued)
  · exact Or.inr (Or.inr fun hg => hunknown (grants_within fresh free hp hp' hg))

end Clockchain.V1
